import Debe.BaselineRestore
import Debe.Lib.FrameBuffer
import Mathlib.Data.Int.GCD

/-!
# Key generation in the Baseline client

`ProcessBatchChunk` encrypts a batch of chunks, each under a key of its own that also goes into
the key recipe file and into the recipe buffer.  The key is the hash of the chunk (`MLEDAE`),
the hash of the chunk's hash and a seed from the key manager (`TEDDAE`), or the hash of a
signature that the key manager gave without seeing the hash it signed (`DupLESSDAE`).  The last
two go over the batch twice, once to write a request of one slot for each chunk, and once to
encrypt with what came back in the slots.

The answers of the key manager are a parameter, and so are the random numbers and the short
hash.
-/

namespace Debe

open Records LittleEndian

/-- `RSA_KEY_SIZE`. -/
def rsaKeySize : Nat := 128

/-- `sizeof(KeyRecipeEntry_t)`: a key and behind it the hash of a ciphertext chunk. -/
def keyRecipeEntrySize : Nat := 64

/-! ## Numbers -/

/-- `BN_bin2bn`. -/
def bnBin2bn (bs : Bytes) : Nat := decode bs.reverse

/-- `BN_bn2bin` to the end of a buffer of `RSA_KEY_SIZE` zeros. -/
def bnBn2bin (n : Nat) : Except Fault Bytes :=
  if n < 256 ^ rsaKeySize then .ok (encode rsaKeySize n).reverse else .error .outOfRange

/-- `BN_mod_inverse`.  The result stays zero where there is no inverse. -/
def bnModInverse (r n : Nat) : Nat :=
  if Nat.gcd r n = 1 then (Nat.gcdA r n % n).toNat else 0

/-- The key manager's public key, whose modulus has at most `RSA_KEY_SIZE` bytes. -/
structure RSAPublicKey where
  clientKeyN : Nat
  clientKeyE : Nat
  clientKeyN_pos : 0 < clientKeyN
  clientKeyN_le : clientKeyN ≤ 256 ^ rsaKeySize

/-- `DecorateFP`: the blinded hash. -/
def decorateFP (key : RSAPublicKey) (r : Nat) (fp : Bytes) : Except Fault Bytes :=
  let h := bnBin2bn fp
  let tmp := r ^ key.clientKeyE % key.clientKeyN
  let tmp := h * tmp % key.clientKeyN
  bnBn2bin tmp

/-- `Elimination`: the signature without the blinding. -/
def elimination (key : RSAPublicKey) (inv : Nat) (slot : Bytes) : Except Fault Bytes :=
  let h := bnBin2bn slot
  let tmp := h * inv % key.clientKeyN
  bnBn2bin tmp

/-! ## The key manager -/

/-- The messages between client and key manager. -/
inductive KeyMsgType
  | clientKeyGen
  | keyManagerKeyGenReply
  deriving DecidableEq, Repr

structure KeyReply where
  messageType : KeyMsgType
  data : Bytes
  deriving DecidableEq, Repr

/-- A key manager.  It answers the last of the requests so far, in any way that may depend on
all of them, with a reply that has a slot for each slot of the request. -/
structure KeyManager where
  reply : List Bytes → KeyReply
  messageType_reply : ∀ requests, (reply requests).messageType = .keyManagerKeyGenReply
  length_reply : ∀ requests request,
    (reply (requests ++ [request])).data.length = request.length

/-- What the Baseline client runs with.  `Configure` refuses a recipe batch size that is not a
multiple of the chunk batch size. -/
structure BaselineParams where
  crypto : Crypto
  murmurHash3 : Bytes → Bytes
  rand : Nat → Nat
  publicKey : RSAPublicKey
  keyManager : KeyManager
  sendChunkBatchSize : Nat
  sendRecipeBatchSize : Nat
  length_murmurHash3 : ∀ d, (murmurHash3 d).length = 16
  sendChunkBatchSize_pos : 0 < sendChunkBatchSize
  sendRecipeBatchSize_pos : 0 < sendRecipeBatchSize
  recipe_multiple : sendChunkBatchSize ∣ sendRecipeBatchSize

/-- The members of an `AbsDAE`: the key recipe file, the buffer for requests and replies (of
`TEDDAE` or `DupLESSDAE`), the requests sent so far and how many random numbers were drawn. -/
structure DAE where
  keyRecipeFile : Bytes
  keyGenBuf : FrameBuffer
  requests : List Bytes
  draws : Nat
  deriving DecidableEq, Repr

/-- What `ProcessBatchChunk` writes to. -/
structure BatchState where
  dae : DAE
  cipher : FrameBuffer
  recipe : FrameBuffer
  deriving DecidableEq, Repr

/-! ## The loops over a batch -/

/-- The chunk at an offset of a buffer, and the offset behind it. -/
def readChunk (buf : Bytes) (offset : Nat) : Except Fault (Bytes × Nat) := do
  let size ← inRange (Buffer.read buf offset 4)
  let chunkSize := decode size
  let chunkData ← inRange (Buffer.read buf (offset + 4) chunkSize)
  return (chunkData, offset + 4 + chunkSize)

/-- Go over `n` chunks of a buffer, from the `i`-th at an offset. -/
def chunkLoop {σ : Type} (body : σ → Nat → Bytes → Except Fault σ) (buf : Bytes) :
    Nat → Nat → Nat → σ → Except Fault σ
  | 0, _, _, s => .ok s
  | n+1, i, offset, s => do
      let chunk ← readChunk buf offset
      let s ← body s i chunk.1
      chunkLoop body buf n (i + 1) chunk.2 s

/-- Go over all chunks of a buffer. -/
def forChunks {σ : Type} (body : σ → Nat → Bytes → Except Fault σ) (b : FrameBuffer) (s : σ) :
    Except Fault σ :=
  chunkLoop body b.dataBuffer b.currentItemNum.toNat 0 0 s

/-- The body of the first loop: write the slot of a chunk into the request. -/
def askKey (slotSize : Nat) (block : Nat → Bytes → Except Fault Bytes) (b : FrameBuffer) (i : Nat)
    (chunkData : Bytes) : Except Fault FrameBuffer := do
  let bytes ← block i chunkData
  let dataBuffer ← inRange (Buffer.write b.dataBuffer b.dataSize.toNat bytes)
  return {
    currentItemNum := b.currentItemNum + 1
    dataSize := b.dataSize + UInt32.ofNat slotSize
    dataBuffer := dataBuffer }

/-- Write the request, send it, and receive the reply into the same buffer.  The header comes with
the reply, but of it only the type is read before the buffer is reset. -/
def keyGenRound (p : BaselineParams) (slotSize : Nat) (block : Nat → Bytes → Except Fault Bytes)
    (plain : FrameBuffer) (dae : DAE) : Except Fault DAE := do
  let keyGenBuf ← forChunks (askKey slotSize block) plain dae.keyGenBuf
  let requests := dae.requests ++ [keyGenBuf.payload]
  let reply := p.keyManager.reply requests
  if reply.messageType ≠ .keyManagerKeyGenReply then
    .error (.exitError "wrong key manager reply type.")
  else
    let dataBuffer ← inRange (Buffer.write keyGenBuf.dataBuffer 0 reply.data)
    return { dae with
      keyGenBuf := { keyGenBuf with dataBuffer := dataBuffer }
      requests := requests }

/-- The `i`-th slot of the reply; the offset is computed in 32 bits. -/
def replySlot (slotSize : Nat) (dae : DAE) (i : Nat) : Except Fault Bytes :=
  inRange (Buffer.read dae.keyGenBuf.dataBuffer (i * slotSize % 2 ^ 32) slotSize)

/-- The body of the second loop: derive the key of a chunk, write it to the file and into its
recipe, and append the encrypted chunk to the ciphertext chunks. -/
def sealChunk (keyOf : Nat → Bytes → Except Fault Bytes) (encrypt : Bytes → Bytes → Bytes)
    (s : BatchState) (i : Nat) (chunkData : Bytes) : Except Fault BatchState := do
  let key ← keyOf i chunkData
  let recipes ← inRange (Buffer.write s.recipe.dataBuffer
    (s.recipe.dataSize.toNat + i * keyRecipeEntrySize) key)
  let cipher ← inRange (s.cipher.append (encrypt key chunkData))
  return {
    dae := { s.dae with keyRecipeFile := s.dae.keyRecipeFile ++ key }
    cipher := cipher
    recipe := { s.recipe with dataBuffer := recipes } }

/-! ## `ProcessBatchChunk` -/

section DAEs

variable (p : BaselineParams)

/-- The key of a chunk of the plain scheme. -/
def plainKey (_ : Nat) (_ : Bytes) : Except Fault Bytes := .ok (List.replicate chunkHashSize 1)

/-- `PlainDAE::ProcessBatchChunk`. -/
def plainProcessBatchChunk (plain : FrameBuffer) (s : BatchState) : Except Fault BatchState :=
  forChunks (sealChunk plainKey fun _ chunkData => chunkData) plain s

/-- The key of a chunk in `MLEDAE`. -/
def mleKey (_ : Nat) (chunkData : Bytes) : Except Fault Bytes :=
  .ok (p.crypto.generateHash chunkData)

/-- `MLEDAE::ProcessBatchChunk`. -/
def mleProcessBatchChunk (plain : FrameBuffer) (s : BatchState) : Except Fault BatchState :=
  forChunks (sealChunk (mleKey p) p.crypto.encryptWithKey) plain s

/-- What `TEDDAE` writes into a slot of the request. -/
def tedBlock (_ : Nat) (chunkData : Bytes) : Except Fault Bytes :=
  .ok (p.murmurHash3 chunkData)

/-- The key of a chunk in `TEDDAE`. -/
def tedKey (dae : DAE) (i : Nat) (chunkData : Bytes) : Except Fault Bytes := do
  let seed ← replySlot chunkHashSize dae i
  return p.crypto.generateHash (p.crypto.generateHash chunkData ++ seed)

/-- `TEDDAE::ProcessBatchChunk`. -/
def tedProcessBatchChunk (plain : FrameBuffer) (s : BatchState) : Except Fault BatchState := do
  let dae ← keyGenRound p chunkHashSize (tedBlock p) plain s.dae
  let s ← forChunks (sealChunk (tedKey p dae) p.crypto.encryptWithKey) plain { s with dae := dae }
  return { s with dae := { s.dae with keyGenBuf := s.dae.keyGenBuf.reset } }

/-- What `DupLESSDAE` writes into a slot of the request. -/
def duplessBlock (draws i : Nat) (chunkData : Bytes) : Except Fault Bytes :=
  decorateFP p.publicKey (p.rand (draws + i)) (p.crypto.generateHash chunkData)

/-- The key of a chunk in `DupLESSDAE`. -/
def duplessKey (draws : Nat) (dae : DAE) (i : Nat) (_ : Bytes) : Except Fault Bytes := do
  let slot ← replySlot rsaKeySize dae i
  let inv := bnModInverse (p.rand (draws + i)) p.publicKey.clientKeyN
  let tmpRSAKey ← elimination p.publicKey inv slot
  return p.crypto.generateHash tmpRSAKey

/-- `DupLESSDAE::ProcessBatchChunk`. -/
def duplessProcessBatchChunk (plain : FrameBuffer) (s : BatchState) :
    Except Fault BatchState := do
  let draws := s.dae.draws
  let dae ← keyGenRound p rsaKeySize (duplessBlock p draws) plain s.dae
  let dae := { dae with draws := draws + plain.currentItemNum.toNat }
  let s ← forChunks (sealChunk (duplessKey p draws dae) p.crypto.encryptWithKey) plain
    { s with dae := dae }
  return { s with dae := { s.dae with keyGenBuf := s.dae.keyGenBuf.reset } }

/-- `ProcessBatchChunk` of the scheme that is configured. -/
def processBatchChunk (methodType : DAEType) (plain : FrameBuffer) (s : BatchState) :
    Except Fault BatchState :=
  match methodType with
  | .plain => plainProcessBatchChunk plain s
  | .ce => mleProcessBatchChunk p plain s
  | .ted => tedProcessBatchChunk p plain s
  | .dupless => duplessProcessBatchChunk p plain s

/-- The ciphertext of a chunk under a key. -/
def ciphertext (methodType : DAEType) (key chunkData : Bytes) : Bytes :=
  if methodType = .plain then chunkData else p.crypto.encryptWithKey key chunkData

/-- The size of a slot. -/
def slotSize : DAEType → Nat
  | .plain => 0
  | .ce => 0
  | .ted => chunkHashSize
  | .dupless => rsaKeySize

end DAEs

/-! ## The loop rule -/

/-- The first of the records that follow at an offset. -/
theorem readChunk_frames {buf chunk : Bytes} {rest : List Bytes} {offset : Nat}
    (hbuf : frames (chunk :: rest) <+: buf.drop offset) (hsmall : chunk.length < 2 ^ 32) :
    readChunk buf offset = .ok (chunk, offset + 4 + chunk.length) ∧
      frames rest <+: buf.drop (offset + 4 + chunk.length) := by
  obtain ⟨tail, htail⟩ := hbuf
  rw [frames_cons, frame, List.append_assoc, List.append_assoc] at htail
  have hlen := congrArg List.length htail
  rw [List.length_append, List.length_append, length_encode, List.length_drop] at hlen
  have hsize : (buf.drop offset).take 4 = encode 4 chunk.length := by
    rw [← htail]
    exact List.take_left' (length_encode 4 _)
  have hbehind : buf.drop (offset + 4) = chunk ++ (frames rest ++ tail) := by
    rw [← List.drop_drop, ← htail]
    exact List.drop_left' (length_encode 4 _)
  have hdecode : decode (encode 4 chunk.length) = chunk.length := decode_encode_of_lt hsmall
  refine ⟨?_, tail, ?_⟩
  · simp only [readChunk, Buffer.read, if_pos (show offset + 4 ≤ buf.length by omega), hsize,
      inRange, hdecode, if_pos (show offset + 4 + chunk.length ≤ buf.length by omega), hbehind,
      List.take_left, bind, Except.bind, pure, Except.pure]
  · rw [← List.drop_drop, hbehind, List.drop_left]

/-- The loop from a chunk on. -/
theorem chunkLoop_ok_from {σ : Type} {body : σ → Nat → Bytes → Except Fault σ} {buf : Bytes}
    {P : List Bytes → σ → Prop} (pre : List Bytes) {chunks : List Bytes} {offset : Nat} {s : σ}
    (hbuf : frames chunks <+: buf.drop offset) (hsmall : ∀ c ∈ chunks, c.length < 2 ^ 32)
    (hs : P pre s)
    (hstep : ∀ pre' chunk rest s, pre ++ chunks = pre' ++ chunk :: rest → P pre' s →
      ∃ s', body s pre'.length chunk = .ok s' ∧ P (pre' ++ [chunk]) s') :
    ∃ s', chunkLoop body buf chunks.length pre.length offset s = .ok s' ∧ P (pre ++ chunks) s' := by
  induction chunks generalizing pre offset s with
  | nil => exact ⟨s, rfl, by simpa using hs⟩
  | cons chunk rest ih =>
      rw [List.forall_mem_cons] at hsmall
      obtain ⟨hread, hbuf'⟩ := readChunk_frames hbuf hsmall.1
      obtain ⟨s₁, hbody, hs₁⟩ := hstep pre chunk rest s rfl hs
      have hsplit : pre ++ chunk :: rest = (pre ++ [chunk]) ++ rest := by simp
      obtain ⟨s₂, hrest, hs₂⟩ := ih (pre ++ [chunk]) hbuf' hsmall.2 hs₁ (by
        intro pre' c rest' s hcut
        exact hstep pre' c rest' s (hsplit.trans hcut))
      rw [List.length_append] at hrest
      refine ⟨s₂, ?_, by rw [hsplit]; exact hs₂⟩
      rw [List.length_cons, chunkLoop, hread]
      simp only [bind, Except.bind, hbody]
      exact hrest

/-- The chunks of a batch have lengths of 32 bits. -/
theorem length_lt_of_written {size : Nat} {chunks : List Bytes} {b : FrameBuffer}
    (hb : FrameBuffer.Written size chunks b) : ∀ c ∈ chunks, c.length < 2 ^ 32 := by
  intro c hc
  obtain ⟨pre, post, rfl⟩ := List.append_of_mem hc
  have hle := hb.le
  rw [frames_append, frames_cons, List.length_append, List.length_append, length_frame] at hle
  omega

/-- **Loop rule.**  Over a buffer that holds the chunks, a body that succeeds and keeps the
invariant makes a loop that succeeds and ends in the invariant of all chunks. -/
theorem forChunks_ok {σ : Type} (body : σ → Nat → Bytes → Except Fault σ) {size : Nat}
    {chunks : List Bytes} {b : FrameBuffer} {P : List Bytes → σ → Prop} {s : σ}
    (hb : FrameBuffer.Written size chunks b) (hs : P [] s)
    (hstep : ∀ pre chunk rest s, chunks = pre ++ chunk :: rest → P pre s →
      ∃ s', body s pre.length chunk = .ok s' ∧ P (pre ++ [chunk]) s') :
    ∃ s', forChunks body b s = .ok s' ∧ P chunks s' := by
  unfold forChunks
  rw [hb.toNat_currentItemNum]
  exact chunkLoop_ok_from [] hb.begins (length_lt_of_written hb) hs hstep

/-- What the bodies keep, from a chunk on. -/
theorem chunkLoop_keeps {σ : Type} {body : σ → Nat → Bytes → Except Fault σ} {buf : Bytes}
    {P : List Bytes → σ → Prop} (pre : List Bytes) {chunks : List Bytes} {offset : Nat} {s s' : σ}
    (hbuf : frames chunks <+: buf.drop offset) (hsmall : ∀ c ∈ chunks, c.length < 2 ^ 32)
    (hs : P pre s)
    (hstep : ∀ pre' chunk rest s s', pre ++ chunks = pre' ++ chunk :: rest → P pre' s →
      body s pre'.length chunk = .ok s' → P (pre' ++ [chunk]) s')
    (hrun : chunkLoop body buf chunks.length pre.length offset s = .ok s') :
    P (pre ++ chunks) s' := by
  induction chunks generalizing pre offset s with
  | nil =>
      cases hrun
      simpa using hs
  | cons chunk rest ih =>
      rw [List.forall_mem_cons] at hsmall
      obtain ⟨hread, hbuf'⟩ := readChunk_frames hbuf hsmall.1
      rw [List.length_cons, chunkLoop, hread] at hrun
      obtain ⟨_, ⟨⟩, hrun⟩ := Loops.bind_eq_ok.mp hrun
      obtain ⟨s₁, hbody, hrest⟩ := Loops.bind_eq_ok.mp hrun
      have hs₁ := hstep pre chunk rest s s₁ rfl hs hbody
      have hsplit : pre ++ chunk :: rest = (pre ++ [chunk]) ++ rest := by simp
      have hlen : pre.length + 1 = (pre ++ [chunk]).length := by
        rw [List.length_append, List.length_singleton]
      rw [hsplit]
      exact ih (pre ++ [chunk]) hbuf' hsmall.2 hs₁
        (fun pre' c rest' s s' hcut => hstep pre' c rest' s s' (hsplit.trans hcut))
        (hlen ▸ hrest)

/-- **Invariant rule.**  What the bodies keep over a buffer that holds the chunks, the loop
keeps. -/
theorem forChunks_keeps {σ : Type} {body : σ → Nat → Bytes → Except Fault σ} {size : Nat}
    {chunks : List Bytes} {b : FrameBuffer} {P : List Bytes → σ → Prop} {s s' : σ}
    (hb : FrameBuffer.Written size chunks b) (hs : P [] s)
    (hstep : ∀ pre chunk rest s s', chunks = pre ++ chunk :: rest → P pre s →
      body s pre.length chunk = .ok s' → P (pre ++ [chunk]) s')
    (hrun : forChunks body b s = .ok s') : P chunks s' := by
  unfold forChunks at hrun
  rw [hb.toNat_currentItemNum] at hrun
  have hbuf : frames chunks <+: b.dataBuffer.drop 0 := hb.begins
  exact chunkLoop_keeps [] hbuf (length_lt_of_written hb) hs hstep hrun

/-! ## The first loop -/

/-- A request buffer between two batches. -/
structure DAE.Ready (size : Nat) (dae : DAE) : Prop where
  currentItemNum : dae.keyGenBuf.currentItemNum = 0
  dataSize : dae.keyGenBuf.dataSize = 0
  length : dae.keyGenBuf.dataBuffer.length = size

variable {p : BaselineParams} {size cap slots : Nat} {chunks : List Bytes} {plain : FrameBuffer}

theorem askKeys_ok {block : Nat → Bytes → Except Fault Bytes} {b : FrameBuffer}
    (hplain : FrameBuffer.Written size chunks plain) (hdata : b.dataSize = 0)
    (hlen : b.dataBuffer.length = cap) (hcap : chunks.length * slots ≤ cap)
    (hblock : ∀ i chunk, ∃ bytes, block i chunk = .ok bytes ∧ bytes.length ≤ slots) :
    ∃ b', forChunks (askKey slots block) plain b = .ok b' ∧ b'.dataBuffer.length = cap := by
  let P : List Bytes → FrameBuffer → Prop := fun pre b =>
    b.dataSize = UInt32.ofNat (pre.length * slots) ∧ b.dataBuffer.length = cap
  have hstart : P [] b := ⟨by rw [hdata, List.length_nil, Nat.zero_mul]; rfl, hlen⟩
  obtain ⟨b', hrun, -, hlen'⟩ := forChunks_ok (askKey slots block) hplain hstart (by
    rintro pre chunk rest b rfl ⟨hdata, hlen⟩
    obtain ⟨bytes, hbytes, hle⟩ := hblock pre.length chunk
    have hmul : (pre.length + 1) * slots ≤ cap := by
      refine Nat.le_trans (Nat.mul_le_mul_right _ ?_) hcap
      rw [List.length_append, List.length_cons]
      omega
    have hoff : b.dataSize.toNat ≤ pre.length * slots := by
      rw [hdata, UInt32.toNat_ofNat']
      exact Nat.mod_le _ _
    rw [Nat.succ_mul] at hmul
    have hroom : b.dataSize.toNat + bytes.length ≤ b.dataBuffer.length := by omega
    have hask : askKey slots block b pre.length chunk = .ok {
        currentItemNum := b.currentItemNum + 1
        dataSize := b.dataSize + UInt32.ofNat slots
        dataBuffer := Buffer.overwrite b.dataBuffer b.dataSize.toNat bytes } := by
      simp only [askKey, hbytes, Buffer.write, if_pos hroom, inRange, bind, Except.bind, pure,
        Except.pure]
    refine ⟨_, hask, ?_, ?_⟩
    · dsimp only
      rw [hdata, List.length_append, List.length_singleton, Nat.succ_mul, UInt32.ofNat_add]
    · dsimp only
      rw [Buffer.length_overwrite hroom, hlen])
  exact ⟨b', hrun, hlen'⟩

/-- **The first loop and the answer.**  Nothing but the request buffer and the list of requests
changes, and the buffer keeps its size. -/
theorem keyGenRound_ok {block : Nat → Bytes → Except Fault Bytes} {dae : DAE}
    (hplain : FrameBuffer.Written size chunks plain) (hdae : dae.Ready cap)
    (hcap : chunks.length * slots ≤ cap)
    (hblock : ∀ i chunk, ∃ bytes, block i chunk = .ok bytes ∧ bytes.length ≤ slots) :
    ∃ dae', keyGenRound p slots block plain dae = .ok dae' ∧
      dae'.keyGenBuf.dataBuffer.length = cap ∧ dae'.keyRecipeFile = dae.keyRecipeFile ∧
      dae'.draws = dae.draws := by
  obtain ⟨b, hrun, hlen⟩ := askKeys_ok hplain hdae.dataSize hdae.length hcap hblock
  have hreply := p.keyManager.length_reply dae.requests b.payload
  have hroom : 0 + (p.keyManager.reply (dae.requests ++ [b.payload])).data.length ≤
      b.dataBuffer.length := by
    rw [Nat.zero_add, hreply]
    exact List.length_take_le' _ _
  have htype : ¬ (p.keyManager.reply (dae.requests ++ [b.payload])).messageType ≠
      .keyManagerKeyGenReply := not_not.mpr (p.keyManager.messageType_reply _)
  have hround : keyGenRound p slots block plain dae = .ok { dae with
      keyGenBuf := { b with
        dataBuffer := Buffer.overwrite b.dataBuffer 0
          (p.keyManager.reply (dae.requests ++ [b.payload])).data }
      requests := dae.requests ++ [b.payload] } := by
    simp only [keyGenRound, hrun, bind, Except.bind, if_neg htype, Buffer.write, if_pos hroom,
      inRange, pure, Except.pure]
  refine ⟨_, hround, ?_, rfl, rfl⟩
  dsimp only
  rw [Buffer.length_overwrite hroom, hlen]

/-- Every chunk of the batch has its slot in the buffer. -/
theorem replySlot_ok {dae : DAE} (hlen : dae.keyGenBuf.dataBuffer.length = cap) {n i : Nat}
    (hcap : n * slots ≤ cap) (hi : i < n) :
    ∃ slot, replySlot slots dae i = .ok slot := by
  have hmul : (i + 1) * slots ≤ cap := Nat.le_trans (Nat.mul_le_mul_right _ hi) hcap
  have hmod := Nat.mod_le (i * slots) (2 ^ 32)
  rw [Nat.succ_mul] at hmul
  have hroom : i * slots % 2 ^ 32 + slots ≤ dae.keyGenBuf.dataBuffer.length := by omega
  have hread : replySlot slots dae i =
      .ok ((dae.keyGenBuf.dataBuffer.drop (i * slots % 2 ^ 32)).take slots) := by
    simp only [replySlot, Buffer.read, if_pos hroom, inRange]
  exact ⟨_, hread⟩

/-! ## The numbers fit -/

@[simp] theorem bnBn2bin_ok {n : Nat} (hn : n < 256 ^ rsaKeySize) :
    ∃ bytes, bnBn2bin n = .ok bytes ∧ bytes.length = rsaKeySize :=
  ⟨_, if_pos hn, by rw [List.length_reverse, length_encode]⟩

/-- A number modulo the key manager's modulus fits the buffer. -/
theorem RSAPublicKey.mod_lt (key : RSAPublicKey) (n : Nat) :
    n % key.clientKeyN < 256 ^ rsaKeySize :=
  Nat.lt_of_lt_of_le (Nat.mod_lt _ key.clientKeyN_pos) key.clientKeyN_le

theorem decorateFP_ok (key : RSAPublicKey) (r : Nat) (fp : Bytes) :
    ∃ bytes, decorateFP key r fp = .ok bytes ∧ bytes.length = rsaKeySize :=
  bnBn2bin_ok (key.mod_lt _)

theorem elimination_ok (key : RSAPublicKey) (inv : Nat) (slot : Bytes) :
    ∃ bytes, elimination key inv slot = .ok bytes ∧ bytes.length = rsaKeySize :=
  bnBn2bin_ok (key.mod_lt _)

theorem tedKey_ok {dae : DAE} (hlen : dae.keyGenBuf.dataBuffer.length = cap) {n i : Nat}
    (hcap : n * chunkHashSize ≤ cap) (hi : i < n) (chunkData : Bytes) :
    ∃ key, tedKey p dae i chunkData = .ok key ∧ key.length = chunkHashSize := by
  obtain ⟨seed, hseed⟩ := replySlot_ok hlen hcap hi
  refine ⟨p.crypto.generateHash (p.crypto.generateHash chunkData ++ seed), ?_,
    p.crypto.length_generateHash _⟩
  simp only [tedKey, hseed, bind, Except.bind, pure, Except.pure]

theorem duplessKey_ok {dae : DAE} (hlen : dae.keyGenBuf.dataBuffer.length = cap) {n i : Nat}
    (hcap : n * rsaKeySize ≤ cap) (hi : i < n) (draws : Nat) (chunkData : Bytes) :
    ∃ key, duplessKey p draws dae i chunkData = .ok key ∧ key.length = chunkHashSize := by
  obtain ⟨slot, hslot⟩ := replySlot_ok hlen hcap hi
  obtain ⟨tmpRSAKey, helim, -⟩ := elimination_ok p.publicKey
    (bnModInverse (p.rand (draws + i)) p.publicKey.clientKeyN) slot
  refine ⟨p.crypto.generateHash tmpRSAKey, ?_, p.crypto.length_generateHash _⟩
  simp only [duplessKey, hslot, helim, bind, Except.bind, pure, Except.pure]

/-! ## The second loop -/

/-- A chunk and the key it is encrypted under. -/
structure KeyedChunk where
  key : Bytes
  chunk : Bytes
  length_key : key.length = chunkHashSize

/-- The chunk under its key. -/
def KeyedChunk.encrypted (encrypt : Bytes → Bytes → Bytes) (k : KeyedChunk) : Bytes :=
  encrypt k.key k.chunk

/-- What the second loop did to a batch: the keys are behind what the key recipe file had, the
encrypted chunks in the cipher buffer, and the recipe buffer has its header and its size. -/
structure BatchSealed (size : Nat) (encrypt : Bytes → Bytes → Bytes) (file : Bytes)
    (recipe : FrameBuffer) (ks : List KeyedChunk) (s : BatchState) : Prop where
  keyRecipeFile : s.dae.keyRecipeFile = file ++ ks.flatMap KeyedChunk.key
  cipher : FrameBuffer.Written size (ks.map (KeyedChunk.encrypted encrypt)) s.cipher
  currentItemNum : s.recipe.currentItemNum = recipe.currentItemNum
  dataSize : s.recipe.dataSize = recipe.dataSize
  length : s.recipe.dataBuffer.length = recipe.dataBuffer.length

/-- Encryption keeps the size of a batch. -/
theorem length_frames_map {encrypt : Bytes → Bytes → Bytes}
    (henc : ∀ key d, (encrypt key d).length = d.length) (ks : List KeyedChunk) :
    (frames (ks.map (KeyedChunk.encrypted encrypt))).length =
      (frames (ks.map KeyedChunk.chunk)).length := by
  induction ks with
  | nil => rfl
  | cons k ks ih =>
      rw [List.map_cons, List.map_cons, frames_cons, frames_cons, List.length_append,
        List.length_append, length_frame, length_frame, KeyedChunk.encrypted, henc, ih]

/-- **One chunk.** -/
theorem sealChunk_ok {keyOf : Nat → Bytes → Except Fault Bytes} {encrypt : Bytes → Bytes → Bytes}
    {file : Bytes} {recipe : FrameBuffer} {ks : List KeyedChunk} {s : BatchState} {i : Nat}
    {chunkData key : Bytes} (hs : BatchSealed size encrypt file recipe ks s)
    (hkey : keyOf i chunkData = .ok key) (hlen : key.length = chunkHashSize)
    (henc : ∀ key d, (encrypt key d).length = d.length)
    (hle : (frames (ks.map KeyedChunk.chunk ++ [chunkData])).length ≤ 2 ^ 32)
    (hroom : (frames (ks.map KeyedChunk.chunk ++ [chunkData])).length ≤ size)
    (hrecipe : recipe.dataSize.toNat + (i + 1) * keyRecipeEntrySize ≤ recipe.dataBuffer.length) :
    ∃ s', sealChunk keyOf encrypt s i chunkData = .ok s' ∧
      BatchSealed size encrypt file recipe (ks ++ [⟨key, chunkData, hlen⟩]) s' ∧
      s'.dae.keyGenBuf = s.dae.keyGenBuf := by
  let k : KeyedChunk := ⟨key, chunkData, hlen⟩
  have hmap : (ks ++ [k]).map (KeyedChunk.encrypted encrypt) =
      ks.map (KeyedChunk.encrypted encrypt) ++ [encrypt key chunkData] := by
    rw [List.map_append, List.map_singleton]
    rfl
  have hsame := length_frames_map henc (ks ++ [k])
  rw [hmap, List.map_append, List.map_singleton] at hsame
  obtain ⟨cipher, happend, hcipher⟩ := hs.cipher.append (hsame ▸ hle) (hsame ▸ hroom)
  have hfits : s.recipe.dataSize.toNat + i * keyRecipeEntrySize + key.length ≤
      s.recipe.dataBuffer.length := by
    rw [hs.dataSize, hs.length, hlen]
    rw [Nat.succ_mul] at hrecipe
    have hhalf : chunkHashSize ≤ keyRecipeEntrySize := by decide
    omega
  have hseal : sealChunk keyOf encrypt s i chunkData = .ok {
      dae := { s.dae with keyRecipeFile := s.dae.keyRecipeFile ++ key }
      cipher := cipher
      recipe := { s.recipe with
        dataBuffer := Buffer.overwrite s.recipe.dataBuffer
          (s.recipe.dataSize.toNat + i * keyRecipeEntrySize) key } } := by
    simp only [sealChunk, hkey, Buffer.write, if_pos hfits, happend, inRange, bind, Except.bind,
      pure, Except.pure]
  refine ⟨_, hseal, ⟨?_, ?_, hs.currentItemNum, hs.dataSize, ?_⟩, rfl⟩
  · dsimp only
    rw [hs.keyRecipeFile, List.flatMap_append, List.flatMap_singleton, List.append_assoc]
  · rw [hmap]
    exact hcipher
  · dsimp only
    rw [Buffer.length_overwrite hfits, hs.length]

/-- What `ProcessBatchChunk` needs: a batch in the plain buffer, an empty cipher buffer with room
for it, and room in the recipe buffer. -/
structure BatchFits (size : Nat) (chunks : List Bytes) (plain : FrameBuffer) (s : BatchState) :
    Prop where
  plain : FrameBuffer.Written size chunks plain
  cipher : FrameBuffer.Written size [] s.cipher
  room : (frames chunks).length ≤ size
  recipe : s.recipe.dataSize.toNat + chunks.length * keyRecipeEntrySize ≤
    s.recipe.dataBuffer.length

/-- **The second loop.**  Whatever the keys are, each is in the file where its ciphertext is in
the buffer. -/
theorem sealLoop_ok (keyOf : Nat → Bytes → Except Fault Bytes) (encrypt : Bytes → Bytes → Bytes)
    {s : BatchState} (hfits : BatchFits size chunks plain s)
    (hkey : ∀ i chunk, i < chunks.length →
      ∃ key, keyOf i chunk = .ok key ∧ key.length = chunkHashSize)
    (henc : ∀ key d, (encrypt key d).length = d.length) :
    ∃ s' ks, forChunks (sealChunk keyOf encrypt) plain s = .ok s' ∧
      ks.map KeyedChunk.chunk = chunks ∧
      BatchSealed size encrypt s.dae.keyRecipeFile s.recipe ks s' ∧
      s'.dae.keyGenBuf = s.dae.keyGenBuf := by
  let P : List Bytes → BatchState → Prop := fun pre s' =>
    ∃ ks, ks.map KeyedChunk.chunk = pre ∧
      BatchSealed size encrypt s.dae.keyRecipeFile s.recipe ks s' ∧
      s'.dae.keyGenBuf = s.dae.keyGenBuf
  have hstart : P [] s :=
    ⟨[], rfl, ⟨(List.append_nil _).symm, hfits.cipher, rfl, rfl, rfl⟩, rfl⟩
  obtain ⟨s', hrun, ks, hks, hsealed, hbuf⟩ :=
    forChunks_ok (sealChunk keyOf encrypt) hfits.plain hstart (by
      rintro pre chunk rest s₁ rfl ⟨ks, rfl, hsealed, hbuf⟩
      have hbegins : ks.map KeyedChunk.chunk ++ [chunk] <+:
          ks.map KeyedChunk.chunk ++ chunk :: rest := ⟨rest, by simp⟩
      have hmono := FrameBuffer.length_frames_mono hbegins
      have hlen : (ks.map KeyedChunk.chunk).length + 1 ≤
          (ks.map KeyedChunk.chunk ++ chunk :: rest).length := by
        rw [List.length_append, List.length_cons]
        omega
      obtain ⟨key, hkey, hkeylen⟩ := hkey (ks.map KeyedChunk.chunk).length chunk hlen
      have hrecipe := Nat.mul_le_mul_right keyRecipeEntrySize hlen
      obtain ⟨s₂, hrun, hsealed₂, hbuf₂⟩ := sealChunk_ok hsealed hkey hkeylen henc
        (hmono.trans hfits.plain.le) (hmono.trans hfits.room)
        ((Nat.add_le_add_left hrecipe _).trans hfits.recipe)
      exact ⟨s₂, hrun, _, by rw [List.map_append, List.map_singleton], hsealed₂,
        hbuf₂.trans hbuf⟩)
  exact ⟨s', ks, hrun, hks, hsealed, hbuf⟩

/-- The second loop with the buffer the key manager filled, and the reset behind it. -/
theorem sealReply_ok (keyOf : Nat → Bytes → Except Fault Bytes) (encrypt : Bytes → Bytes → Bytes)
    {s : BatchState} {dae : DAE} (hfits : BatchFits size chunks plain s)
    (hbuf : dae.keyGenBuf.dataBuffer.length = cap)
    (hfile : dae.keyRecipeFile = s.dae.keyRecipeFile)
    (hkey : ∀ i chunk, i < chunks.length →
      ∃ key, keyOf i chunk = .ok key ∧ key.length = chunkHashSize)
    (henc : ∀ key d, (encrypt key d).length = d.length) :
    ∃ s' ks, forChunks (sealChunk keyOf encrypt) plain { s with dae := dae } = .ok s' ∧
      ks.map KeyedChunk.chunk = chunks ∧
      BatchSealed size encrypt s.dae.keyRecipeFile s.recipe ks
        { s' with dae := { s'.dae with keyGenBuf := s'.dae.keyGenBuf.reset } } ∧
      DAE.Ready cap { s'.dae with keyGenBuf := s'.dae.keyGenBuf.reset } := by
  have hfits' : BatchFits size chunks plain { s with dae := dae } :=
    ⟨hfits.plain, hfits.cipher, hfits.room, hfits.recipe⟩
  obtain ⟨s', ks, hrun, hks, hsealed, hsame⟩ := sealLoop_ok keyOf encrypt hfits' hkey henc
  refine ⟨s', ks, hrun, hks, ?_, ⟨rfl, rfl, ?_⟩⟩
  · exact ⟨hfile ▸ hsealed.keyRecipeFile, hsealed.cipher, hsealed.currentItemNum,
      hsealed.dataSize, hsealed.length⟩
  · exact (congrArg (fun b => b.dataBuffer.length) hsame).trans hbuf

theorem ciphertext_of_ne {methodType : DAEType} (h : methodType ≠ .plain) :
    ciphertext p methodType = p.crypto.encryptWithKey := by
  funext key chunkData
  rw [ciphertext, if_neg h]

theorem length_ciphertext (p : BaselineParams) (methodType : DAEType) (key chunkData : Bytes) :
    (ciphertext p methodType key chunkData).length = chunkData.length := by
  rw [ciphertext]
  split
  · rfl
  · exact p.crypto.length_encryptWithKey _ _

/-- **A batch.**  Under every scheme `ProcessBatchChunk` succeeds, and the keys it adds to the
key recipe file are those of the ciphertext chunks, in their order. -/
theorem processBatchChunk_ok (methodType : DAEType) {s : BatchState}
    (hfits : BatchFits size chunks plain s) (hready : s.dae.Ready cap)
    (hcap : chunks.length * slotSize methodType ≤ cap) :
    ∃ s' ks, processBatchChunk p methodType plain s = .ok s' ∧
      ks.map KeyedChunk.chunk = chunks ∧
      BatchSealed size (ciphertext p methodType) s.dae.keyRecipeFile s.recipe ks s' ∧
      s'.dae.Ready cap := by
  cases methodType with
  | plain =>
      obtain ⟨s', ks, hrun, hks, hsealed, hbuf⟩ :=
        sealLoop_ok plainKey (fun _ chunkData => chunkData) hfits
          (fun _ _ _ => ⟨_, rfl, List.length_replicate⟩) (fun _ _ => rfl)
      exact ⟨s', ks, hrun, hks, hsealed, ⟨hbuf ▸ hready.currentItemNum, hbuf ▸ hready.dataSize,
        hbuf ▸ hready.length⟩⟩
  | ce =>
      obtain ⟨s', ks, hrun, hks, hsealed, hbuf⟩ :=
        sealLoop_ok (mleKey p) p.crypto.encryptWithKey hfits
          (fun _ _ _ => ⟨_, rfl, p.crypto.length_generateHash _⟩) p.crypto.length_encryptWithKey
      rw [ciphertext_of_ne (by decide)]
      exact ⟨s', ks, hrun, hks, hsealed, ⟨hbuf ▸ hready.currentItemNum, hbuf ▸ hready.dataSize,
        hbuf ▸ hready.length⟩⟩
  | ted =>
      have hcap : chunks.length * chunkHashSize ≤ cap := hcap
      have hblock : ∀ i chunk, ∃ bytes, tedBlock p i chunk = .ok bytes ∧
          bytes.length ≤ chunkHashSize := by
        intro i chunk
        refine ⟨_, rfl, ?_⟩
        rw [p.length_murmurHash3]
        decide
      obtain ⟨dae, hround, hlen, hfile, -⟩ :=
        keyGenRound_ok (p := p) hfits.plain hready hcap hblock
      obtain ⟨s', ks, hrun, hks, hsealed, hready'⟩ :=
        sealReply_ok (tedKey p dae) p.crypto.encryptWithKey hfits hlen hfile
          (fun i chunk hi => tedKey_ok hlen hcap hi chunk) p.crypto.length_encryptWithKey
      rw [ciphertext_of_ne (by decide)]
      refine ⟨_, ks, ?_, hks, hsealed, hready'⟩
      rw [processBatchChunk, tedProcessBatchChunk]
      exact Loops.bind_eq_ok.mpr ⟨dae, hround, Loops.bind_eq_ok.mpr ⟨s', hrun, rfl⟩⟩
  | dupless =>
      have hcap : chunks.length * rsaKeySize ≤ cap := hcap
      have hblock : ∀ i chunk, ∃ bytes, duplessBlock p s.dae.draws i chunk = .ok bytes ∧
          bytes.length ≤ rsaKeySize := by
        intro i chunk
        obtain ⟨bytes, hok, hlen⟩ := decorateFP_ok p.publicKey (p.rand (s.dae.draws + i))
          (p.crypto.generateHash chunk)
        exact ⟨bytes, hok, hlen.le⟩
      obtain ⟨dae, hround, hlen, hfile, -⟩ :=
        keyGenRound_ok (p := p) hfits.plain hready hcap hblock
      let dae' : DAE := { dae with draws := s.dae.draws + plain.currentItemNum.toNat }
      have hlen' : dae'.keyGenBuf.dataBuffer.length = cap := hlen
      obtain ⟨s', ks, hrun, hks, hsealed, hready'⟩ :=
        sealReply_ok (duplessKey p s.dae.draws dae') p.crypto.encryptWithKey hfits hlen' hfile
          (fun i chunk hi => duplessKey_ok hlen' hcap hi s.dae.draws chunk)
          p.crypto.length_encryptWithKey
      rw [ciphertext_of_ne (by decide)]
      refine ⟨_, ks, ?_, hks, hsealed, hready'⟩
      rw [processBatchChunk, duplessProcessBatchChunk]
      exact Loops.bind_eq_ok.mpr ⟨dae, hround, Loops.bind_eq_ok.mpr ⟨s', hrun, rfl⟩⟩

end Debe
