import Debe.BaselineSender
import Debe.Lib.Blocks

/-!
# The keys of a Baseline upload

The server gets the ciphertext chunks and the client keeps the keys, both in the order of the
upload and neither with a number.  A restore takes a key from the file for every chunk it
receives, in batches that the server chose, so that it gives the file back if the `i`-th key of
the file is that of the `i`-th chunk.
-/

namespace Debe

open Records LittleEndian FrameBuffer

variable {p : BaselineParams} {methodType : DAEType} {most : Nat}
  {groups : List (List KeyedChunk)} {s : BaselineSender}

/-! ## The restore -/

/-- The chunk batches of a restore, one after the other. -/
def retrieveAll (c : Crypto) (methodType : DAEType) (msgs : List RestoreMsg) (r : Retriever) :
    Retriever :=
  msgs.foldl (fun r m => processChunkBatch c methodType m r) r

/-- The loop of `ProcessChunkBatch` over ciphertexts whose keys are in the key buffer. -/
theorem retrieveChunks_keyed (p : BaselineParams) (methodType : DAEType) (ks : List KeyedChunk)
    {i : Nat} {tail : Bytes} {r : Retriever}
    (hkeys : r.readKeyBuffer.drop (i * chunkHashSize) = ks.flatMap KeyedChunk.key ++ tail) :
    ∃ r', ((ciphertexts p methodType ks).zipIdx i).foldl
        (retrieveChunk p.crypto methodType) r = r' ∧
      r'.outputMQ = r.outputMQ ++ ks.map KeyedChunk.chunk ∧
      r'.keyRecipeFile = r.keyRecipeFile ∧ r'.readKeyBuffer = r.readKeyBuffer := by
  induction ks generalizing i r with
  | nil => exact ⟨r, rfl, by simp, rfl, rfl⟩
  | cons k ks ih =>
      rw [List.flatMap_cons, List.append_assoc] at hkeys
      have hkey : (r.readKeyBuffer.drop (i * chunkHashSize)).take chunkHashSize = k.key := by
        rw [hkeys]
        exact List.take_left' k.length_key
      have hchunk : (if methodType ≠ .plain then
          p.crypto.decryptWithKey k.key (ciphertext p methodType k.key k.chunk)
        else ciphertext p methodType k.key k.chunk) = k.chunk := by
        by_cases hplain : methodType = .plain
        · rw [if_neg (not_not.mpr hplain), ciphertext, if_pos hplain]
        · rw [if_pos hplain, ciphertext, if_neg hplain, p.crypto.decryptWithKey_encryptWithKey]
      let r₁ := retrieveChunk p.crypto methodType r (ciphertext p methodType k.key k.chunk, i)
      have hout : r₁.outputMQ = r.outputMQ ++ [k.chunk] := by
        simp only [r₁, retrieveChunk, hkey, hchunk]
      have hrest : r₁.readKeyBuffer.drop ((i + 1) * chunkHashSize) =
          ks.flatMap KeyedChunk.key ++ tail := by
        rw [Nat.succ_mul]
        calc r.readKeyBuffer.drop (i * chunkHashSize + chunkHashSize)
            = (r.readKeyBuffer.drop (i * chunkHashSize)).drop chunkHashSize := by
              rw [List.drop_drop]
          _ = ks.flatMap KeyedChunk.key ++ tail := by
              rw [hkeys]
              exact List.drop_left' k.length_key
      obtain ⟨r', hrun, hout', hfile, hbuf⟩ := ih hrest
      refine ⟨r', ?_, ?_, hfile, hbuf⟩
      · rw [← hrun]
        rfl
      · rw [hout', hout, List.map_cons, List.append_assoc]
        rfl

/-- **A restore batch** takes its keys off the file. -/
theorem processChunkBatch_keyed {m : RestoreMsg} {ks rest : List KeyedChunk} {r : Retriever}
    (hm : Carries baselineCodec m (ciphertexts p methodType ks))
    (hfile : r.keyRecipeFile = (ks ++ rest).flatMap KeyedChunk.key) :
    (processChunkBatch p.crypto methodType m r).outputMQ =
        r.outputMQ ++ ks.map KeyedChunk.chunk ∧
      (processChunkBatch p.crypto methodType m r).keyRecipeFile = rest.flatMap KeyedChunk.key ∧
      (ks.length * chunkHashSize ≤ r.readKeyBuffer.length →
        (processChunkBatch p.crypto methodType m r).readKeyBuffer.length =
          r.readKeyBuffer.length) := by
  have hcount : m.currentItemNum = ks.length := by
    rw [hm.count, ciphertexts, List.length_map]
  have hsize : ∀ k ∈ ks ++ rest, k.key.length = chunkHashSize := fun k _ => k.length_key
  have htake : r.keyRecipeFile.take (m.currentItemNum * chunkHashSize) =
      ks.flatMap KeyedChunk.key := by
    rw [hfile, hcount, Blocks.take_flatMap hsize, List.take_left]
  have hdrop : r.keyRecipeFile.drop (m.currentItemNum * chunkHashSize) =
      rest.flatMap KeyedChunk.key := by
    rw [hfile, hcount, Blocks.drop_flatMap hsize, List.drop_left]
  have hread : readRecords m.currentItemNum m.data = ciphertexts p methodType ks := hm.read
  unfold processChunkBatch
  rw [htake, hdrop, hread]
  obtain ⟨r', hrun, hout, hfile', hbuf⟩ := retrieveChunks_keyed p methodType ks
    (i := 0) (r := { r with
      keyRecipeFile := rest.flatMap KeyedChunk.key
      readKeyBuffer := ks.flatMap KeyedChunk.key ++
        r.readKeyBuffer.drop (ks.flatMap KeyedChunk.key).length }) (by
      rw [Nat.zero_mul, List.drop_zero])
  dsimp only
  rw [hrun]
  refine ⟨hout, hfile', fun hroom => ?_⟩
  have hkeys : (ks.flatMap KeyedChunk.key).length = ks.length * chunkHashSize :=
    Blocks.length_flatMap fun k _ => k.length_key
  rw [hbuf, List.length_append, List.length_drop, hkeys]
  exact Nat.add_sub_cancel' hroom

/-- Batch after batch, in whatever batches the ciphertexts come. -/
theorem restore_keyed {msgs : List RestoreMsg} {gs : List (List Bytes)} {ks : List KeyedChunk}
    {r : Retriever} (hmsgs : List.Forall₂ (Carries baselineCodec) msgs gs)
    (hgs : gs.flatten = ciphertexts p methodType ks)
    (hfile : r.keyRecipeFile = ks.flatMap KeyedChunk.key) :
    (retrieveAll p.crypto methodType msgs r).outputMQ = r.outputMQ ++ ks.map KeyedChunk.chunk ∧
      ((∀ g ∈ gs, g.length * chunkHashSize ≤ r.readKeyBuffer.length) →
        (retrieveAll p.crypto methodType msgs r).readKeyBuffer.length =
          r.readKeyBuffer.length) := by
  induction hmsgs generalizing ks r with
  | nil =>
      have hnil : ks = [] := List.map_eq_nil_iff.mp hgs.symm
      rw [hnil, List.map_nil, List.append_nil]
      exact ⟨rfl, fun _ => rfl⟩
  | @cons m g msgs gs hm _ ih =>
      rw [List.flatten_cons] at hgs
      obtain ⟨ks₁, ks₂, rfl, rfl, hks₂⟩ := List.map_eq_append_iff.mp hgs.symm
      obtain ⟨hout, hrest, hbuf⟩ := processChunkBatch_keyed hm hfile
      obtain ⟨hout', hbuf'⟩ := ih hks₂.symm hrest
      refine ⟨?_, fun hroom => ?_⟩
      · rw [retrieveAll, List.foldl_cons, ← retrieveAll, hout', hout, List.map_append,
          List.append_assoc]
      · rw [List.forall_mem_cons, List.length_map] at hroom
        have hsame := hbuf hroom.1
        rw [retrieveAll, List.foldl_cons, ← retrieveAll, hbuf' (hsame ▸ hroom.2), hsame]

/-- The keys of the file are those under which the ciphertext chunks were encrypted, whatever
the server has in its buffer behind what it received. -/
def KeysAligned (p : BaselineParams) (methodType : DAEType) (chunks : List Bytes)
    (s : BaselineSender) : Prop :=
  ∃ ks : List KeyedChunk, ks.map KeyedChunk.chunk = chunks ∧
    s.dae.keyRecipeFile = ks.flatMap KeyedChunk.key ∧
    ∀ stale, s.sentChunks stale = ciphertexts p methodType ks

/-- A client that gets the ciphertext chunks back, in any batches, pushes the chunks, and stays
in its key buffer if that has room for the keys of each batch. -/
def RestoresInOrder (p : BaselineParams) (methodType : DAEType) (chunks : List Bytes)
    (s : BaselineSender) : Prop :=
  ∀ stale msgs gs readKeyBuffer, List.Forall₂ (Carries baselineCodec) msgs gs →
    gs.flatten = s.sentChunks stale →
    let r := retrieveAll p.crypto methodType msgs (.init s.dae.keyRecipeFile readKeyBuffer)
    r.outputMQ = chunks ∧
      ((∀ g ∈ gs, g.length * chunkHashSize ≤ readKeyBuffer.length) →
        r.readKeyBuffer.length = readKeyBuffer.length)

/-- Aligned keys give the chunks back. -/
theorem KeysAligned.restores {chunks : List Bytes} (h : KeysAligned p methodType chunks s) :
    RestoresInOrder p methodType chunks s := by
  obtain ⟨ks, hks, hfile, hsent⟩ := h
  intro stale msgs gs readKeyBuffer hmsgs hgs
  obtain ⟨hout, hbuf⟩ := restore_keyed (r := .init s.dae.keyRecipeFile readKeyBuffer) hmsgs
    (hgs.trans (hsent stale)) hfile
  exact ⟨hout.trans hks, hbuf⟩

/-- An upload whose batches can be counted is aligned. -/
theorem UploadDone.aligned {chunks : List Bytes} (hmost : most < 2 ^ 32)
    (h : UploadDone p methodType most chunks groups s) : KeysAligned p methodType chunks s := by
  refine ⟨groups.flatten, h.chunks, h.keyRecipeFile, fun stale => ?_⟩
  have hgroups : ∀ g ∈ groups,
      (cipherMsg p methodType g).chunks stale = ciphertexts p methodType g := fun g hg =>
    chunks_cipherMsg (Nat.lt_of_le_of_lt (h.batches g hg) hmost) stale
  rw [BaselineSender.sentChunks, h.chunkMsgs, List.flatMap_map, ciphertexts, List.map_flatten,
    ← List.flatMap_def]
  exact List.flatMap_congr hgroups

/-- The key manager that gives every request back. -/
def echoKeyManager : KeyManager where
  reply requests := ⟨.keyManagerKeyGenReply, requests.getLastD []⟩
  messageType_reply _ := rfl
  length_reply _ _ := congrArg List.length List.getLastD_concat

theorem modulus_le : 15 ≤ 256 ^ rsaKeySize :=
  Nat.le_trans (show 15 ≤ 256 ^ 1 by decide) (Nat.pow_le_pow_right (by decide) (by decide))

/-- Fifteen is not much of a modulus. -/
def smallPublicKey : RSAPublicKey where
  clientKeyN := 15
  clientKeyE := 3
  clientKeyN_pos := Nat.succ_pos 14
  clientKeyN_le := modulus_le

/-- A small configuration. -/
def smallBaseline : BaselineParams where
  crypto := maskCrypto
  murmurHash3 d := d.takeD 16 0
  rand n := n + 2
  publicKey := smallPublicKey
  keyManager := echoKeyManager
  sendChunkBatchSize := 2
  sendRecipeBatchSize := 4
  length_murmurHash3 _ := List.takeD_length _ _ _
  sendChunkBatchSize_pos := Nat.succ_pos 1
  sendRecipeBatchSize_pos := Nat.succ_pos 3
  recipe_multiple := ⟨2, rfl⟩

/-- The batches of chunks can be counted if a full buffer can. -/
theorem batchesFit_of_chunkBufferSize (hsize : chunkBufferSize p < 2 ^ 32) (chunks : List Chunk) :
    BatchesFit p.sendChunkBatchSize (chunks.map (·.val)) := by
  have hsizes : ∀ chunk ∈ chunks.map (·.val), chunk.length ≤ maxChunkSize := by
    intro chunk hchunk
    obtain ⟨c, -, rfl⟩ := List.mem_map.mp hchunk
    exact c.property
  exact fun k => Nat.lt_of_le_of_lt (length_frames_batch_le hsizes k) hsize

/-- In a buffer of zeros every chunk is empty. -/
theorem parseChunks_zeros (n offset : Nat) :
    ∀ chunk ∈ (parseChunks (fun _ => 0) n offset).map (ParsedChunk.bytes fun _ => 0),
      chunk = [] := by
  induction n generalizing offset with
  | zero => simp [parseChunks]
  | succ n ih =>
      rw [parseChunks, List.map_cons, List.forall_mem_cons]
      exact ⟨rfl, ih _⟩

/-- Batches of `2 ^ 18` chunks. -/
def largeBaseline : BaselineParams :=
  { smallBaseline with
    sendChunkBatchSize := 262144
    sendRecipeBatchSize := 262144
    sendChunkBatchSize_pos := Nat.succ_pos 262143
    sendRecipeBatchSize_pos := Nat.succ_pos 262143
    recipe_multiple := ⟨1, rfl⟩ }

/-- As many chunks as a batch has are one batch. -/
theorem UploadDone.one_batch {chunks : List Bytes}
    (h : UploadDone p methodType most chunks groups s)
    (hlen : chunks.length = p.sendChunkBatchSize) : ∃ g, groups = [g] := by
  have hpos := p.sendChunkBatchSize_pos
  have hcount := congrArg List.length h.chunks
  rw [List.length_map, hlen] at hcount
  rcases groups with - | ⟨g, - | ⟨g', groups⟩⟩
  · rw [List.flatten_nil, List.length_nil] at hcount
    omega
  · exact ⟨g, rfl⟩
  · have hfull := h.full g (by rw [List.dropLast_cons_cons]; exact List.mem_cons_self)
    have hsome := List.length_pos_of_ne_nil (h.nonempty g' (by simp))
    simp only [List.flatten_cons, List.length_append] at hcount
    omega

end Debe
