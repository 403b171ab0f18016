import Debe.Crypto
import Debe.Lz4

/-!
# Storing chunks: containers and recipes

The part of an upload that every index design shares: `EnclaveBase` compresses,
encrypts and hands a unique chunk to `EcallStorageCore::SaveChunk`, which packs
it with its IV into the client's in-enclave container; a full container is
copied out and passed to `Ocall_WriteContainer`; addresses are collected in the
in-enclave recipe and leave it a batch at a time.

`Upload` is the state these functions thread: the client's own buffers, what
lies outside (containers handed over, names drawn so far) and the statistics.
Two fields are histories that no function reads: `Client.history` pairs each
address put into the recipe with the fingerprint it was put there for, and
`Disk.saved` pairs each address returned by `SaveChunk` with the fingerprint of
the chunk that was saved.
-/

namespace Debe

/-- The keys and configuration the enclave was initialised with, and the names
`CreateUUID` will draw.  The batch sizes divide counters and the heap is popped
when full, so values for which the source is undefined are excluded. -/
structure Params where
  crypto : Crypto
  lz4 : Compressor
  enclaveKey : Bytes
  indexQueryKey : Bytes
  sendChunkBatchSize : Nat
  sendRecipeBatchSize : Nat
  topThreshold : Nat
  uuid : Nat → ContainerID
  sendChunkBatchSize_pos : 0 < sendChunkBatchSize
  sendRecipeBatchSize_pos : 0 < sendRecipeBatchSize
  two_le_topThreshold : 2 ≤ topThreshold

/-- The upload half of `EnclaveClient` and `ClientVar`.  `inContainer` is the
in-enclave container up to `curSize`; `inRecipe` the entries collected so far. -/
structure Client where
  sessionKey : Bytes
  masterKey : Bytes
  iv : IV
  inRecipe : List RecipeEntry
  inContainer : Bytes
  curContainer : Container
  recipeFile : Bytes
  history : List (Bytes × RecipeEntry)
  deriving DecidableEq, Repr

/-- What lies outside all clients: the containers handed to
`Ocall_WriteContainer`, oldest first, and the number of names drawn. -/
structure Disk where
  written : List Container
  draws : Nat
  saved : List (Bytes × RecipeEntry)
  deriving DecidableEq, Repr

/-- The state threaded through one client's upload. -/
structure Upload where
  client : Client
  disk : Disk
  stats : Stats
  deriving DecidableEq, Repr

/-- `PickNewIV`: the low 64-bit word of the IV is incremented in place. -/
def pickNewIV (iv : IV) : IV :=
  { iv with lo := iv.lo + 1 }

/-- `Ocall_WriteContainer`: hand the container over and open an empty one under
the next name. -/
def ocallWriteContainer (p : Params) (d : Disk) (c : Container) : Disk × Container :=
  ({ d with written := d.written ++ [c], draws := d.draws + 1 },
    { containerID := p.uuid d.draws, body := [] })

/-- `EcallStorageCore::SaveChunk`: append the chunk and the current IV to the
in-enclave container, handing the container over first when they do not fit. -/
def saveChunk (p : Params) (chunkData : Bytes) (u : Upload) : RecipeEntry × Upload :=
  let c := u.client
  if cryptoBlockSize + chunkData.length + c.inContainer.length < maxContainerSize then
    ({ containerName := c.curContainer.containerID
       offset := UInt32.ofNat c.inContainer.length
       length := UInt32.ofNat chunkData.length },
      { u with client := { c with
          inContainer := c.inContainer ++ (chunkData ++ c.iv.toBytes) } })
  else
    let w := ocallWriteContainer p u.disk { c.curContainer with body := c.inContainer }
    ({ containerName := w.2.containerID
       offset := 0
       length := UInt32.ofNat chunkData.length },
      { u with
        client := { c with curContainer := w.2, inContainer := chunkData ++ c.iv.toBytes }
        disk := w.1 })

/-- What is encrypted for a chunk: its LZ4 block when that fits into the chunk's
own size, else the chunk itself. -/
def payload (p : Params) (chunk : Bytes) : Bytes :=
  let block := p.lz4.compressFast chunk chunk.length
  if 0 < block.length then block else chunk

/-- `EnclaveBase::ProcessUniqueChunk`. -/
def processUniqueChunk (p : Params) (chunk : Bytes) (u : Upload) : RecipeEntry × Upload :=
  let iv := pickNewIV u.client.iv
  let data := payload p chunk
  let cipher := p.crypto.encryptWithKeyIV p.enclaveKey iv.toBytes data
  let r := saveChunk p cipher { u with
    client := { u.client with iv := iv }
    stats := { u.stats with
      compressedDataSize := u.stats.compressedDataSize + data.length } }
  (r.1, { r.2 with disk := { r.2.disk with
    saved := r.2.disk.saved ++ [(p.crypto.generateHash chunk, r.1)] } })

/-- Encrypt the collected entries and append them to the recipe file
(`EncryptWithKey` and `Ocall_UpdateFileRecipe`). -/
def flushRecipe (p : Params) (c : Client) : Client :=
  { c with
    recipeFile := c.recipeFile ++ p.crypto.encryptWithKey c.masterKey (entriesToBytes c.inRecipe)
    inRecipe := [] }

/-- `EnclaveBase::UpdateFileRecipe`, for the chunk with fingerprint `fp`. -/
def updateFileRecipe (p : Params) (fp : Bytes) (chunkAddr : RecipeEntry) (u : Upload) : Upload :=
  let c := { u.client with
    inRecipe := u.client.inRecipe ++ [chunkAddr]
    history := u.client.history ++ [(fp, chunkAddr)] }
  { u with client :=
      if c.inRecipe.length % p.sendRecipeBatchSize = 0 then flushRecipe p c else c }

/-- What every index does with a new chunk: store it and count it. -/
def storeUnique (p : Params) (chunk : Bytes) (u : Upload) : RecipeEntry × Upload :=
  let r := processUniqueChunk p chunk u
  (r.1, { r.2 with stats := { r.2.stats with
    uniqueChunkNum := r.2.stats.uniqueChunkNum + 1
    uniqueDataSize := r.2.stats.uniqueDataSize + chunk.length } })

/-- What every index does last with a chunk: its address goes into the recipe,
and the logical counters move on. -/
def recordChunk (p : Params) (fp : Bytes) (chunkSize : Nat) (chunkAddr : RecipeEntry)
    (u : Upload) : Upload :=
  let u := updateFileRecipe p fp chunkAddr u
  { u with stats := { u.stats with
    logicalDataSize := u.stats.logicalDataSize + chunkSize
    logicalChunkNum := u.stats.logicalChunkNum + 1 } }

/-- `ProcessTailBatch`, the same in the three exact index designs. -/
def processTailBatch (p : Params) (u : Upload) : Upload :=
  let c := if u.client.inRecipe ≠ [] then flushRecipe p u.client else u.client
  { u with client :=
      if c.inContainer ≠ [] then
        { c with curContainer := { c.curContainer with body := c.inContainer } }
      else c }

/-- A small configuration, for evaluating runs. -/
def smallParams : Params where
  crypto := maskCrypto
  lz4 := literalCompressor
  enclaveKey := [1]
  indexQueryKey := [2]
  sendChunkBatchSize := 2
  sendRecipeBatchSize := 2
  topThreshold := 2
  uuid n := ⟨LittleEndian.encode 8 n, LittleEndian.length_encode 8 n⟩
  sendChunkBatchSize_pos := by decide
  sendRecipeBatchSize_pos := by decide
  two_le_topThreshold := by decide

/-- A client of the small configuration that has stored nothing yet. -/
def smallUpload : Upload where
  client :=
    { sessionKey := [3]
      masterKey := [4]
      iv := ⟨0, 0⟩
      inRecipe := []
      inContainer := []
      curContainer := { containerID := smallParams.uuid 0, body := [] }
      recipeFile := []
      history := [] }
  disk := { written := [], draws := 1, saved := [] }
  stats := {}

/-! ## What an address refers to -/

/-- The bytes stored for a chunk: ciphertext, then the IV it was made with. -/
def storedRecord (p : Params) (chunk : Bytes) (iv : IV) : Bytes :=
  p.crypto.encryptWithKeyIV p.enclaveKey iv.toBytes (payload p chunk) ++ iv.toBytes

/-- The byte range an address selects, IV included. -/
def slice (body : Bytes) (a : RecipeEntry) : Bytes :=
  (body.drop a.offset.toNat).take (a.length.toNat + cryptoBlockSize)

/-- Container `c` is the one named by `a`, and there `a` selects the ciphertext
and IV of a chunk with fingerprint `fp`. -/
def Stores (p : Params) (c : Container) (fp : Bytes) (a : RecipeEntry) : Prop :=
  c.containerID = a.containerName ∧
  ∃ chunk iv, p.crypto.generateHash chunk = fp ∧
    a.length.toNat = (payload p chunk).length ∧ slice c.body a = storedRecord p chunk iv

/-- Some container of the list stores the chunk that `a` refers to. -/
def Located (p : Params) (cs : List Container) (fp : Bytes) (a : RecipeEntry) : Prop :=
  ∃ c ∈ cs, Stores p c fp a

/-- The container a client is filling, under the name it will be written with. -/
def Client.pending (c : Client) : Container :=
  { containerID := c.curContainer.containerID, body := c.inContainer }

theorem length_payload_le (p : Params) (chunk : Bytes) :
    (payload p chunk).length ≤ chunk.length := by
  unfold payload
  dsimp only
  split
  · exact p.lz4.length_compressFast_le chunk chunk.length
  · exact le_rfl

theorem length_storedRecord (p : Params) (chunk : Bytes) (iv : IV) :
    (storedRecord p chunk iv).length = (payload p chunk).length + cryptoBlockSize := by
  rw [storedRecord, List.length_append, p.crypto.length_encryptWithKeyIV, IV.length_toBytes]

theorem Located.mono {p : Params} {cs cs' : List Container} {fp : Bytes} {a : RecipeEntry}
    (h : Located p cs fp a) (hsub : ∀ c ∈ cs, c ∈ cs') : Located p cs' fp a := by
  obtain ⟨c, hc, hs⟩ := h
  exact ⟨c, hsub c hc, hs⟩

/-- A stored record lies inside its container. -/
theorem Stores.inside {p : Params} {c : Container} {fp : Bytes} {a : RecipeEntry}
    (h : Stores p c fp a) :
    a.offset.toNat + a.length.toNat + cryptoBlockSize ≤ c.body.length := by
  obtain ⟨_, chunk, iv, _, hlen, hslice⟩ := h
  have hcount := congrArg List.length hslice
  rw [length_storedRecord, slice, List.length_take, List.length_drop, ← hlen] at hcount
  unfold cryptoBlockSize at *
  omega

/-- Bytes appended to a container leave the stored records where they are. -/
theorem Stores.append {p : Params} {id : ContainerID} {body : Bytes} {fp : Bytes}
    {a : RecipeEntry} (h : Stores p ⟨id, body⟩ fp a) (more : Bytes) :
    Stores p ⟨id, body ++ more⟩ fp a := by
  have hin : a.offset.toNat + a.length.toNat + cryptoBlockSize ≤ body.length := h.inside
  obtain ⟨hid, chunk, iv, hfp, hlen, hslice⟩ := h
  refine ⟨hid, chunk, iv, hfp, hlen, ?_⟩
  rw [← hslice]
  unfold slice
  have hcut : a.length.toNat + cryptoBlockSize ≤ (body.drop a.offset.toNat).length := by
    rw [List.length_drop]
    omega
  rw [List.drop_append_of_le_length (by omega), List.take_append_of_le_length hcut]

/-- No record lies in an empty container. -/
theorem not_stores_nil {p : Params} {id : ContainerID} {fp : Bytes} {a : RecipeEntry} :
    ¬ Stores p ⟨id, []⟩ fp a := by
  intro h
  have hin := h.inside
  simp [cryptoBlockSize] at hin

/-! ## One storing step -/

/-- The names of the containers handed over and of the one being filled. -/
def Upload.names (u : Upload) : List ContainerID :=
  u.disk.written.map Container.containerID ++ [u.client.curContainer.containerID]

/-- All that storing chunks may do to the containers: hand some over, each time
going on in one with the next name, and lose no stored record on the way.  Every
newly saved address is located. -/
structure StoreStep (p : Params) (u u' : Upload) : Prop where
  room : u'.client.inContainer.length < maxContainerSize
  body : u.client.curContainer.body = [] → u'.client.curContainer.body = []
  names : ∃ k, u'.disk.draws = u.disk.draws + k ∧
    u'.names = u.names ++ (List.range' u.disk.draws k).map p.uuid
  written : u.disk.written <+: u'.disk.written
  keep : ∀ fp a, Stores p u.client.pending fp a →
    Located p (u'.disk.written ++ [u'.client.pending]) fp a
  saved : ∃ log, u'.disk.saved = u.disk.saved ++ log ∧
    ∀ e ∈ log, Located p (u'.disk.written ++ [u'.client.pending]) e.1 e.2

/-- A step that leaves containers, names and the save history alone. -/
theorem StoreStep.of_same {p : Params} {u u' : Upload}
    (hroom : u.client.inContainer.length < maxContainerSize)
    (hin : u'.client.inContainer = u.client.inContainer)
    (hcur : u'.client.curContainer = u.client.curContainer)
    (hdisk : u'.disk = u.disk) : StoreStep p u u' := by
  have hpend : u'.client.pending = u.client.pending := by
    simp [Client.pending, hin, hcur]
  exact {
    room := by rw [hin]; exact hroom
    body := by rw [hcur]; exact id
    names := ⟨0, by rw [hdisk]; rfl, by simp [Upload.names, hcur, hdisk]⟩
    written := hdisk ▸ List.prefix_rfl
    keep := fun fp a hs => ⟨_, by simp, hpend ▸ hs⟩
    saved := ⟨[], by simp [hdisk], by simp⟩ }

/-- A located record stays located across a later step. -/
theorem StoreStep.located {p : Params} {u u' : Upload} (h : StoreStep p u u') {fp : Bytes}
    {a : RecipeEntry} (hl : Located p (u.disk.written ++ [u.client.pending]) fp a) :
    Located p (u'.disk.written ++ [u'.client.pending]) fp a := by
  obtain ⟨c, hc, hs⟩ := hl
  rcases List.mem_append.mp hc with hc | hc
  · exact ⟨c, List.mem_append_left _ (h.written.subset hc), hs⟩
  · rw [List.mem_singleton.mp hc] at hs
    exact h.keep fp a hs

theorem StoreStep.trans {p : Params} {u v w : Upload} (h : StoreStep p u v)
    (h' : StoreStep p v w) : StoreStep p u w := by
  obtain ⟨k, hk, hn⟩ := h.names
  obtain ⟨k', hk', hn'⟩ := h'.names
  obtain ⟨log, hs, hl⟩ := h.saved
  obtain ⟨log', hs', hl'⟩ := h'.saved
  have hrange : List.range' u.disk.draws (k + k') =
      List.range' u.disk.draws k ++ List.range' v.disk.draws k' := by
    rw [hk, List.range'_append_1]
  exact {
    room := h'.room
    body := fun hb => h'.body (h.body hb)
    names := ⟨k + k', by omega, by
      rw [hn', hn, hrange, List.map_append, List.append_assoc]⟩
    written := h.written.trans h'.written
    keep := fun fp a hp => h'.located (h.keep fp a hp)
    saved := ⟨log ++ log', by rw [hs', hs, List.append_assoc], by
      intro e he
      rcases List.mem_append.mp he with he | he
      · exact h'.located (hl e he)
      · exact hl' e he⟩ }

private theorem toNat_ofNat_small {n : Nat} (h : n < maxContainerSize) :
    (UInt32.ofNat n).toNat = n := by
  rw [UInt32.toNat_ofNat']
  unfold maxContainerSize at h
  omega

/-- `SaveChunk` makes a storing step that logs nothing by itself. -/
theorem saveChunk_storeStep (p : Params) {data : Bytes} {u : Upload}
    (hdata : data.length + cryptoBlockSize < maxContainerSize) :
    StoreStep p u (saveChunk p data u).2 := by
  by_cases hfit : cryptoBlockSize + data.length + u.client.inContainer.length < maxContainerSize
  · have hstep : (saveChunk p data u).2 = { u with client := { u.client with
        inContainer := u.client.inContainer ++ (data ++ u.client.iv.toBytes) } } := by
      simp [saveChunk, hfit]
    rw [hstep]
    refine ⟨?_, id, ⟨0, rfl, by simp [Upload.names]⟩, List.prefix_rfl, ?_,
      ⟨[], by simp, by simp⟩⟩
    · simp only [List.length_append, IV.length_toBytes]
      omega
    · intro fp a hs
      exact ⟨_, List.mem_append_right _ (List.mem_singleton_self _), hs.append _⟩
  · -- the old container is handed over as it stands, so its records are now written
    have hstep : (saveChunk p data u).2 = { u with
        client := { u.client with
          curContainer := { containerID := p.uuid u.disk.draws, body := [] }
          inContainer := data ++ u.client.iv.toBytes }
        disk := { u.disk with
          written := u.disk.written ++ [u.client.pending]
          draws := u.disk.draws + 1 } } := by
      simp [saveChunk, hfit, ocallWriteContainer, Client.pending]
    rw [hstep]
    refine ⟨?_, fun _ => rfl, ⟨1, rfl, by simp [Upload.names, Client.pending]⟩,
      List.prefix_append _ _, ?_, ⟨[], by simp, by simp⟩⟩
    · simp only [List.length_append, IV.length_toBytes]
      omega
    · intro fp a hs
      exact ⟨_, by simp, hs⟩

/-- The address that `SaveChunk` returns selects exactly the chunk and the IV in
force, in the container the client is now filling. -/
theorem saveChunk_address (p : Params) {data : Bytes} {u : Upload}
    (hdata : data.length + cryptoBlockSize < maxContainerSize) :
    (saveChunk p data u).2.client.pending.containerID = (saveChunk p data u).1.containerName ∧
    (saveChunk p data u).1.length.toNat = data.length ∧
    slice (saveChunk p data u).2.client.pending.body (saveChunk p data u).1 =
      data ++ u.client.iv.toBytes := by
  have hd : (UInt32.ofNat data.length).toNat = data.length := toNat_ofNat_small (by omega)
  have hall : (data ++ u.client.iv.toBytes).take (data.length + cryptoBlockSize) =
      data ++ u.client.iv.toBytes := by
    apply List.take_of_length_le
    simp
  unfold saveChunk
  dsimp only
  split
  · rename_i hfit
    have hp : (UInt32.ofNat u.client.inContainer.length).toNat = u.client.inContainer.length :=
      toNat_ofNat_small (by omega)
    refine ⟨rfl, hd, ?_⟩
    simp only [slice, Client.pending, hp, hd, List.drop_left]
    exact hall
  · refine ⟨rfl, hd, ?_⟩
    simp only [slice, Client.pending, hd, UInt32.toNat_zero, List.drop_zero]
    exact hall

/-- Logging a located address is a storing step. -/
theorem StoreStep.log {p : Params} {u : Upload} {fp : Bytes} {a : RecipeEntry}
    (hroom : u.client.inContainer.length < maxContainerSize)
    (hs : Stores p u.client.pending fp a) :
    StoreStep p u { u with disk := { u.disk with saved := u.disk.saved ++ [(fp, a)] } } := by
  refine ⟨hroom, id, ⟨0, rfl, by simp [Upload.names]⟩, List.prefix_rfl, ?_, ⟨[(fp, a)], rfl, ?_⟩⟩
  · intro fp' a' hs'
    exact ⟨_, List.mem_append_right _ (List.mem_singleton_self _), hs'⟩
  · intro e he
    rw [List.mem_singleton.mp he]
    exact ⟨_, List.mem_append_right _ (List.mem_singleton_self _), hs⟩

/-- An encrypted chunk fits into a container. -/
theorem length_cipher_lt (p : Params) {chunk : Bytes} (hchunk : chunk.length ≤ maxChunkSize)
    (iv : Bytes) :
    (p.crypto.encryptWithKeyIV p.enclaveKey iv (payload p chunk)).length + cryptoBlockSize <
      maxContainerSize := by
  have hle := length_payload_le p chunk
  rw [p.crypto.length_encryptWithKeyIV]
  unfold maxChunkSize at hchunk
  unfold maxContainerSize cryptoBlockSize
  omega

/-- The address that `ProcessUniqueChunk` returns selects the chunk's ciphertext
and the new IV in the container being filled. -/
theorem processUniqueChunk_address (p : Params) {chunk : Bytes} {u : Upload}
    (hchunk : chunk.length ≤ maxChunkSize) :
    (processUniqueChunk p chunk u).2.client.pending.containerID =
      (processUniqueChunk p chunk u).1.containerName ∧
    (processUniqueChunk p chunk u).1.length.toNat = (payload p chunk).length ∧
    slice (processUniqueChunk p chunk u).2.client.pending.body (processUniqueChunk p chunk u).1 =
      storedRecord p chunk (pickNewIV u.client.iv) := by
  obtain ⟨hname, hsize, hslice⟩ := saveChunk_address p
    (u := { u with
      client := { u.client with iv := pickNewIV u.client.iv }
      stats := { u.stats with
        compressedDataSize := u.stats.compressedDataSize + (payload p chunk).length } })
    (length_cipher_lt p hchunk (pickNewIV u.client.iv).toBytes)
  exact ⟨hname, hsize.trans (p.crypto.length_encryptWithKeyIV _ _ _), hslice⟩

/-- **`ProcessUniqueChunk` stores the chunk.**  The address it returns selects
the chunk's ciphertext and IV in the container being filled, and nothing stored
before is lost. -/
theorem processUniqueChunk_spec (p : Params) {chunk : Bytes} {u : Upload}
    (hchunk : chunk.length ≤ maxChunkSize)
    (hroom : u.client.inContainer.length < maxContainerSize) :
    StoreStep p u (processUniqueChunk p chunk u).2 ∧
    Stores p (processUniqueChunk p chunk u).2.client.pending (p.crypto.generateHash chunk)
      (processUniqueChunk p chunk u).1 := by
  -- the IV and the statistics change first, then the container, then the log
  let u₁ : Upload := { u with
    client := { u.client with iv := pickNewIV u.client.iv }
    stats := { u.stats with
      compressedDataSize := u.stats.compressedDataSize + (payload p chunk).length } }
  have hfirst : StoreStep p u u₁ := StoreStep.of_same hroom rfl rfl rfl
  have hsave := saveChunk_storeStep p (u := u₁)
    (length_cipher_lt p hchunk (pickNewIV u.client.iv).toBytes)
  obtain ⟨hname, hsize, hslice⟩ := processUniqueChunk_address p (u := u) hchunk
  have hstores : Stores p (processUniqueChunk p chunk u).2.client.pending
      (p.crypto.generateHash chunk) (processUniqueChunk p chunk u).1 :=
    ⟨hname, chunk, pickNewIV u.client.iv, rfl, hsize, hslice⟩
  exact ⟨(hfirst.trans hsave).trans (StoreStep.log hsave.room hstores), hstores⟩

/-- The save log after `ProcessUniqueChunk`. -/
theorem processUniqueChunk_saved (p : Params) (chunk : Bytes) (u : Upload) :
    (processUniqueChunk p chunk u).2.disk.saved =
      u.disk.saved ++ [(p.crypto.generateHash chunk, (processUniqueChunk p chunk u).1)] := by
  unfold processUniqueChunk saveChunk ocallWriteContainer
  dsimp only
  split <;> rfl

/-- `ProcessUniqueChunk` leaves the recipe alone. -/
theorem processUniqueChunk_recipe (p : Params) (chunk : Bytes) (u : Upload) :
    (processUniqueChunk p chunk u).2.client.inRecipe = u.client.inRecipe ∧
    (processUniqueChunk p chunk u).2.client.recipeFile = u.client.recipeFile ∧
    (processUniqueChunk p chunk u).2.client.masterKey = u.client.masterKey ∧
    (processUniqueChunk p chunk u).2.client.history = u.client.history := by
  unfold processUniqueChunk saveChunk
  dsimp only
  split <;> exact ⟨rfl, rfl, rfl, rfl⟩

/-- `UpdateFileRecipe` leaves the containers alone. -/
theorem updateFileRecipe_storeStep (p : Params) (fp : Bytes) (a : RecipeEntry) {u : Upload}
    (hroom : u.client.inContainer.length < maxContainerSize) :
    StoreStep p u (updateFileRecipe p fp a u) := by
  apply StoreStep.of_same hroom
  · unfold updateFileRecipe flushRecipe
    dsimp only
    split <;> rfl
  · unfold updateFileRecipe flushRecipe
    dsimp only
    split <;> rfl
  · rfl

end Debe
