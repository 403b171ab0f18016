import Debe.Framing
import Debe.KeyGeneration

/-!
# The Baseline upload

The Baseline `DataSender` collects chunks in a plain buffer.  When `sendChunkBatchSize_` of them
are there, and once more at the end, `ProcessBatchChunk` encrypts them into a cipher buffer,
`GenerateRecipe` hashes the ciphertexts into the recipe buffer next to the keys, and the cipher
buffer is sent; the recipe buffer is sent when it has `sendRecipeBatchSize_` entries.

Of a run this module says what the key recipe file and the chunk messages are: the keys of the
batches, and their ciphertexts, batch by batch.
-/

namespace Debe

open Records LittleEndian FrameBuffer

/-- The messages of an upload. -/
inductive BaselineMsgType
  | clientUploadChunk
  | clientUploadRecipe
  | clientUploadRecipeEnd
  deriving DecidableEq, Repr

/-- A message: the fields of its header and the `dataSize` bytes behind it. -/
structure BaselineMsg where
  messageType : BaselineMsgType
  currentItemNum : UInt32
  dataSize : UInt32
  data : Bytes
  deriving DecidableEq, Repr

/-- A buffer as it is sent. -/
def baselineMsg (messageType : BaselineMsgType) (b : FrameBuffer) : BaselineMsg where
  messageType := messageType
  currentItemNum := b.currentItemNum
  dataSize := b.dataSize
  data := b.payload

/-- The Baseline `DataSender`, with what it sent so far. -/
structure BaselineSender where
  plain : FrameBuffer
  cipher : FrameBuffer
  recipe : FrameBuffer
  dae : DAE
  sent : List BaselineMsg
  deriving DecidableEq, Repr

/-- A buffer that was just allocated. -/
def freshBuffer (heap : Nat → UInt8) (size : Nat) : FrameBuffer where
  currentItemNum := 0
  dataSize := 0
  dataBuffer := freshBytes heap size

section Sender

variable (p : BaselineParams) (methodType : DAEType)

/-- The constructors of the sender and of its `AbsDAE`. -/
def BaselineSender.init (heap : Nat → UInt8) : BaselineSender where
  plain := freshBuffer heap (p.sendChunkBatchSize * sizeofChunk)
  cipher := freshBuffer heap (p.sendChunkBatchSize * sizeofChunk)
  recipe := freshBuffer heap (p.sendRecipeBatchSize * keyRecipeEntrySize)
  dae := {
    keyRecipeFile := []
    keyGenBuf := freshBuffer heap (p.sendChunkBatchSize * slotSize methodType)
    requests := []
    draws := 0 }
  sent := []

/-- The body of the loop of `GenerateRecipe`: the hash goes behind the key. -/
def hashCipherChunk (start : Nat) (recipes : Bytes) (i : Nat) (chunkData : Bytes) :
    Except Fault Bytes :=
  inRange (Buffer.write recipes (start + i * keyRecipeEntrySize + chunkHashSize)
    (p.crypto.generateHash chunkData))

/-- `DataSender::GenerateRecipe`. -/
def generateRecipe (cipher recipe : FrameBuffer) : Except Fault FrameBuffer := do
  let recipes ← forChunks (hashCipherChunk p recipe.dataSize.toNat) cipher recipe.dataBuffer
  return {
    currentItemNum := recipe.currentItemNum + cipher.currentItemNum
    dataSize := recipe.dataSize + cipher.currentItemNum * UInt32.ofNat keyRecipeEntrySize
    dataBuffer := recipes }

/-- Encrypt the chunks that wait, if there are any, and generate their recipes. -/
def sealPlainChunks (s : BaselineSender) : Except Fault BaselineSender :=
  if s.plain.currentItemNum ≠ 0 then do
    let batch ← processBatchChunk p methodType s.plain ⟨s.dae, s.cipher, s.recipe⟩
    let recipe ← generateRecipe p batch.cipher batch.recipe
    return { s with
      cipher := batch.cipher
      recipe := recipe
      dae := batch.dae }
  else .ok s

/-- `DataSender::SendRecipes`. -/
def sendBaselineRecipes (s : BaselineSender) : BaselineSender :=
  { s with
    recipe := s.recipe.reset
    sent := s.sent ++ [baselineMsg .clientUploadRecipe s.recipe] }

/-- `DataSender::SendChunks`. -/
def sendBaselineChunks (s : BaselineSender) : BaselineSender :=
  { s with
    cipher := s.cipher.reset
    sent := s.sent ++ [baselineMsg .clientUploadChunk s.cipher] }

/-- `DataSender::ProcessChunkBatch`. -/
def sendChunkBatch (s : BaselineSender) : Except Fault BaselineSender := do
  let s ← sealPlainChunks p methodType s
  let s := if s.recipe.currentItemNum.toNat % p.sendRecipeBatchSize = 0 then
    sendBaselineRecipes s else s
  return if s.cipher.currentItemNum.toNat % p.sendChunkBatchSize = 0 then
    sendBaselineChunks s else s

/-- A chunk in the loop of `DataSender::Run`. -/
def addChunk (s : BaselineSender) (inputChunk : Chunk) : Except Fault BaselineSender := do
  let plain ← inRange (s.plain.append inputChunk.val)
  let s := { s with plain := plain }
  if plain.currentItemNum.toNat % p.sendChunkBatchSize = 0 then
    let s ← sendChunkBatch p methodType s
    return { s with plain := s.plain.reset }
  else return s

/-- The recipe end, in the cipher buffer. -/
def sendBaselineRecipeEnd (s : BaselineSender) (recipeHead : FileRecipeHead) :
    Except Fault BaselineSender := do
  let dataBuffer ← inRange (Buffer.write s.cipher.dataBuffer 0 recipeHead.toBytes)
  let cipher := { s.cipher with
    dataSize := UInt32.ofNat fileRecipeHeadSize
    dataBuffer := dataBuffer }
  return { s with
    cipher := cipher
    sent := s.sent ++ [baselineMsg .clientUploadRecipeEnd cipher] }

/-- `DataSender::ProcessRecipeEnd`. -/
def finishUpload (s : BaselineSender) (recipeHead : FileRecipeHead) :
    Except Fault BaselineSender := do
  let s ← sealPlainChunks p methodType s
  let s := if s.recipe.currentItemNum ≠ 0 then sendBaselineRecipes s else s
  let s := if s.cipher.currentItemNum ≠ 0 then sendBaselineChunks s else s
  sendBaselineRecipeEnd s recipeHead

/-- The body of the loop of `DataSender::Run`. -/
def baselineSenderStep (s : BaselineSender) : MQData → Except Fault BaselineSender
  | .chunk data => addChunk p methodType s data
  | .recipeEnd recipeHead => finishUpload p methodType s recipeHead

/-- `DataSender::Run` over what it takes out of the queue. -/
def baselineSenderRun (heap : Nat → UInt8) (items : List MQData) :
    Except Fault BaselineSender :=
  items.foldlM (baselineSenderStep p methodType) (.init p methodType heap)

end Sender

/-- The chunk messages among those that were sent. -/
def BaselineSender.chunkMsgs (s : BaselineSender) : List BaselineMsg :=
  s.sent.filter fun m => m.messageType = .clientUploadChunk

/-- The chunks that the server finds in a message.  Behind the bytes that came its buffer holds
whatever was there before. -/
def BaselineMsg.chunks (stale : Nat → UInt8) (m : BaselineMsg) : List Bytes :=
  let mem := recvMemory m.data stale
  (parseChunks mem m.currentItemNum.toNat 0).map (ParsedChunk.bytes mem)

/-- The ciphertext chunks that were sent. -/
def BaselineSender.sentChunks (stale : Nat → UInt8) (s : BaselineSender) : List Bytes :=
  s.chunkMsgs.flatMap (BaselineMsg.chunks stale)

/-! ## A chunk message -/

variable {p : BaselineParams} {methodType : DAEType}

/-- The size of the plain buffer and of the cipher buffer. -/
abbrev chunkBufferSize (p : BaselineParams) : Nat := p.sendChunkBatchSize * sizeofChunk

/-- The ciphertexts of a batch. -/
def ciphertexts (p : BaselineParams) (methodType : DAEType) (ks : List KeyedChunk) : List Bytes :=
  ks.map (KeyedChunk.encrypted (ciphertext p methodType))

theorem length_frames_ciphertexts (p : BaselineParams) (methodType : DAEType)
    (ks : List KeyedChunk) :
    (frames (ciphertexts p methodType ks)).length =
      (frames (ks.map KeyedChunk.chunk)).length :=
  length_frames_map (length_ciphertext p methodType) ks

/-- The message of a batch.  With `2 ^ 32` bytes of ciphertext chunks it has none of them. -/
def cipherMsg (p : BaselineParams) (methodType : DAEType) (ks : List KeyedChunk) : BaselineMsg where
  messageType := .clientUploadChunk
  currentItemNum := UInt32.ofNat ks.length
  dataSize := UInt32.ofNat (frames (ciphertexts p methodType ks)).length
  data := (frames (ciphertexts p methodType ks)).take
    ((frames (ciphertexts p methodType ks)).length % 2 ^ 32)

theorem baselineMsg_eq_cipherMsg {size : Nat} {ks : List KeyedChunk} {b : FrameBuffer}
    (h : Written size (ciphertexts p methodType ks) b) :
    baselineMsg .clientUploadChunk b = cipherMsg p methodType ks := by
  obtain ⟨tail, htail⟩ := h.begins
  have hmod := Nat.mod_le (frames (ciphertexts p methodType ks)).length (2 ^ 32)
  have hdata : b.payload = (frames (ciphertexts p methodType ks)).take
      ((frames (ciphertexts p methodType ks)).length % 2 ^ 32) := by
    rw [FrameBuffer.payload, h.dataSize, UInt32.toNat_ofNat', ← htail,
      List.take_append_of_le_length hmod]
  have hnum : b.currentItemNum = UInt32.ofNat ks.length := by
    rw [h.currentItemNum, ciphertexts, List.length_map]
  simp only [baselineMsg, cipherMsg, hdata, hnum, h.dataSize]

/-- **A batch is received** as it was encrypted if its bytes can be counted. -/
theorem chunks_cipherMsg {ks : List KeyedChunk}
    (h : (frames (ks.map KeyedChunk.chunk)).length < 2 ^ 32) (stale : Nat → UInt8) :
    (cipherMsg p methodType ks).chunks stale = ciphertexts p methodType ks := by
  rw [← length_frames_ciphertexts p methodType] at h
  have hcount := four_mul_length_le (ciphertexts p methodType ks)
  have hlength : (ciphertexts p methodType ks).length = ks.length := List.length_map _
  have hnum : (UInt32.ofNat ks.length).toNat = (ciphertexts p methodType ks).length := by
    rw [UInt32.toNat_ofNat_of_lt' (show ks.length < 2 ^ 32 by omega), hlength]
  have hsmall : ∀ c ∈ ciphertexts p methodType ks, c.length < 2 ^ 32 := fun c hc =>
    Nat.lt_of_le_of_lt (length_le_frames hc) h
  have hfits := fits_frames _ hsmall []
  rw [List.append_nil] at hfits
  unfold BaselineMsg.chunks cipherMsg
  dsimp only
  rw [hnum, Nat.mod_eq_of_lt h, List.take_length, parseChunks_bytes h (Nat.zero_le _) hfits,
    List.drop_zero]
  exact readRecords_frames _ hsmall

/-! ## The recipe buffer -/

/-- The header of the recipe buffer counts the entries, modulo `2 ^ 32`. -/
structure RecipeCounts (p : BaselineParams) (entries : Nat) (recipe : FrameBuffer) : Prop where
  currentItemNum : recipe.currentItemNum = UInt32.ofNat entries
  dataSize : recipe.dataSize = UInt32.ofNat (entries * keyRecipeEntrySize)
  length : recipe.dataBuffer.length = p.sendRecipeBatchSize * keyRecipeEntrySize

/-- The recipe buffer between two batches.  It has the entries of full batches, and since its
size is a multiple of a batch there is room for one more batch; a buffer of `2 ^ 32` entries has
room for whatever its counters can say. -/
structure RecipeRoom (p : BaselineParams) (entries : Nat) (recipe : FrameBuffer) : Prop
    extends RecipeCounts p entries recipe where
  room : p.sendRecipeBatchSize < 2 ^ 32 →
    p.sendChunkBatchSize ∣ entries ∧ entries < p.sendRecipeBatchSize

variable {entries n : Nat} {recipe : FrameBuffer}

theorem recipeRoom_reset (recipe : FrameBuffer) (h : recipe.dataBuffer.length =
    p.sendRecipeBatchSize * keyRecipeEntrySize) : RecipeRoom p 0 recipe.reset :=
  ⟨⟨rfl, rfl, h⟩, fun _ => ⟨Nat.dvd_zero _, p.sendRecipeBatchSize_pos⟩⟩

/-- A batch behind whole batches stays within the next multiple of the batch size. -/
theorem RecipeRoom.next_le (h : RecipeRoom p entries recipe)
    (hsmall : p.sendRecipeBatchSize < 2 ^ 32) :
    entries + p.sendChunkBatchSize ≤ p.sendRecipeBatchSize := by
  obtain ⟨hdvd, hlt⟩ := h.room hsmall
  have hpos := Nat.sub_pos_of_lt hlt
  have hle := Nat.le_of_dvd hpos (Nat.dvd_sub p.recipe_multiple hdvd)
  omega

/-- There is room for the entries of a batch. -/
theorem RecipeRoom.fits (h : RecipeRoom p entries recipe) (hn : n ≤ p.sendChunkBatchSize)
    (h30 : n ≤ 2 ^ 30) :
    recipe.dataSize.toNat + n * keyRecipeEntrySize ≤ recipe.dataBuffer.length := by
  have hsize : recipe.dataSize.toNat ≤ entries * keyRecipeEntrySize := by
    rw [h.dataSize, UInt32.toNat_ofNat']
    exact Nat.mod_le _ _
  have hbits := recipe.dataSize.toNat_lt
  rw [h.length]
  unfold keyRecipeEntrySize at hsize ⊢
  rcases Nat.lt_or_ge p.sendRecipeBatchSize (2 ^ 32) with hsmall | hlarge
  · have hnext := h.next_le hsmall
    omega
  · omega

/-- After a full batch the buffer is sent, or has room for another batch. -/
theorem RecipeRoom.next (h : RecipeRoom p entries recipe) {recipe' : FrameBuffer}
    (h' : RecipeCounts p (entries + p.sendChunkBatchSize) recipe')
    (hnot : recipe'.currentItemNum.toNat % p.sendRecipeBatchSize ≠ 0) :
    RecipeRoom p (entries + p.sendChunkBatchSize) recipe' := by
  refine ⟨h', fun hsmall => ?_⟩
  have hnext := h.next_le hsmall
  refine ⟨Nat.dvd_add (h.room hsmall).1 (Nat.dvd_refl _), Nat.lt_of_le_of_ne hnext ?_⟩
  intro heq
  rw [h'.currentItemNum, heq, UInt32.toNat_ofNat_of_lt' hsmall, Nat.mod_self] at hnot
  exact hnot rfl

/-- **`GenerateRecipe`** counts the ciphertext chunks, and copies nothing but hashes. -/
theorem generateRecipe_ok {size : Nat} {chunks : List Bytes} {cipher : FrameBuffer}
    (hcipher : Written size chunks cipher) (h : RecipeCounts p entries recipe)
    (hroom : recipe.dataSize.toNat + chunks.length * keyRecipeEntrySize ≤
      recipe.dataBuffer.length) :
    ∃ recipe', generateRecipe p cipher recipe = .ok recipe' ∧
      RecipeCounts p (entries + chunks.length) recipe' := by
  have hbody : ∀ pre chunk rest (recipes : Bytes), chunks = pre ++ chunk :: rest →
      recipes.length = recipe.dataBuffer.length →
      ∃ recipes', hashCipherChunk p recipe.dataSize.toNat recipes pre.length chunk =
        .ok recipes' ∧ recipes'.length = recipe.dataBuffer.length := by
    intro pre chunk rest recipes hsplit hlen
    have hhash := p.crypto.length_generateHash chunk
    have hcount : (pre.length + 1) * keyRecipeEntrySize ≤ chunks.length * keyRecipeEntrySize := by
      refine Nat.mul_le_mul_right _ ?_
      rw [hsplit, List.length_append, List.length_cons]
      omega
    have hentry : chunkHashSize + chunkHashSize = keyRecipeEntrySize := rfl
    rw [Nat.succ_mul] at hcount
    have hfits : recipe.dataSize.toNat + pre.length * keyRecipeEntrySize + chunkHashSize +
        (p.crypto.generateHash chunk).length ≤ recipes.length := by omega
    refine ⟨Buffer.overwrite recipes (recipe.dataSize.toNat + pre.length * keyRecipeEntrySize +
      chunkHashSize) (p.crypto.generateHash chunk), ?_, ?_⟩
    · simp only [hashCipherChunk, Buffer.write, if_pos hfits, inRange]
    · rw [Buffer.length_overwrite hfits, hlen]
  obtain ⟨recipes, hrun, hlen⟩ := forChunks_ok (hashCipherChunk p recipe.dataSize.toNat)
    (P := fun _ (recipes : Bytes) => recipes.length = recipe.dataBuffer.length) hcipher rfl hbody
  refine ⟨_, Loops.bind_eq_ok.mpr ⟨recipes, hrun, rfl⟩, ?_, ?_, hlen.trans h.length⟩
  · dsimp only
    rw [h.currentItemNum, hcipher.currentItemNum, UInt32.ofNat_add]
  · dsimp only
    rw [h.dataSize, hcipher.currentItemNum, Nat.add_mul, UInt32.ofNat_add, UInt32.ofNat_mul]
    rw [UInt32.ofNat_mul]

/-! ## A batch -/

/-- A batch that waits in the plain buffer. -/
structure BatchWaits (p : BaselineParams) (batch : List Bytes) (s : BaselineSender) : Prop where
  plain : Written (chunkBufferSize p) batch s.plain
  le : batch.length ≤ p.sendChunkBatchSize
  room : (frames batch).length ≤ chunkBufferSize p
  nonempty : batch ≠ []

/-- What there is besides the plain buffer: an empty cipher buffer, a recipe buffer with room for
a batch, and an `AbsDAE` between two batches. -/
structure SenderReady (p : BaselineParams) (methodType : DAEType) (entries : Nat)
    (s : BaselineSender) : Prop where
  cipher : Written (chunkBufferSize p) [] s.cipher
  recipe : RecipeRoom p entries s.recipe
  dae : s.dae.Ready (p.sendChunkBatchSize * slotSize methodType)

/-- What became of a batch: the keys are in the file, the ciphertexts in the cipher buffer, and
the entries are counted. -/
structure SenderSealed (p : BaselineParams) (methodType : DAEType) (entries : Nat)
    (ks : List KeyedChunk) (s s' : BaselineSender) : Prop where
  plain : s'.plain = s.plain
  cipher : Written (chunkBufferSize p) (ciphertexts p methodType ks) s'.cipher
  recipe : RecipeCounts p (entries + ks.length) s'.recipe
  dae : s'.dae.Ready (p.sendChunkBatchSize * slotSize methodType)
  keyRecipeFile : s'.dae.keyRecipeFile = s.dae.keyRecipeFile ++ ks.flatMap KeyedChunk.key
  sent : s'.sent = s.sent

theorem BatchWaits.currentItemNum_ne {batch : List Bytes} {s : BaselineSender}
    (hbatch : BatchWaits p batch s) : s.plain.currentItemNum ≠ 0 := by
  intro hzero
  have hcount := hbatch.plain.toNat_currentItemNum
  rw [hzero] at hcount
  exact hbatch.nonempty (List.length_eq_zero_iff.mp hcount.symm)

/-- There is room for what `ProcessBatchChunk` makes of the batch. -/
theorem BatchWaits.fits {batch : List Bytes} {s : BaselineSender} (hbatch : BatchWaits p batch s)
    (hs : SenderReady p methodType entries s) :
    BatchFits (chunkBufferSize p) batch s.plain ⟨s.dae, s.cipher, s.recipe⟩ := by
  have h30 : batch.length ≤ 2 ^ 30 := by
    have hfour := four_mul_length_le batch
    have hle := hbatch.plain.le
    omega
  exact ⟨hbatch.plain, hs.cipher, hbatch.room, hs.recipe.fits hbatch.le h30⟩

theorem sealPlainChunks_ok {batch : List Bytes} {s : BaselineSender}
    (hbatch : BatchWaits p batch s) (hs : SenderReady p methodType entries s) :
    ∃ s' ks, sealPlainChunks p methodType s = .ok s' ∧ ks.map KeyedChunk.chunk = batch ∧
      SenderSealed p methodType entries ks s s' := by
  have hfits := hbatch.fits hs
  obtain ⟨t, ks, hrun, rfl, hsealed, hready⟩ :=
    processBatchChunk_ok (p := p) methodType hfits hs.dae (Nat.mul_le_mul_right _ hbatch.le)
  have hcounts : RecipeCounts p entries t.recipe :=
    ⟨hsealed.currentItemNum.trans hs.recipe.currentItemNum,
      hsealed.dataSize.trans hs.recipe.dataSize, hsealed.length.trans hs.recipe.length⟩
  have hlen : (ciphertexts p methodType ks).length = (ks.map KeyedChunk.chunk).length := by
    rw [ciphertexts, List.length_map, List.length_map]
  obtain ⟨recipe', hgen, hrecipe⟩ := generateRecipe_ok hsealed.cipher hcounts (by
    rw [hsealed.dataSize, hsealed.length]
    exact hlen ▸ hfits.recipe)
  have hseal : sealPlainChunks p methodType s = .ok { s with
      cipher := t.cipher
      recipe := recipe'
      dae := t.dae } := by
    rw [sealPlainChunks, if_pos hbatch.currentItemNum_ne]
    exact Loops.bind_eq_ok.mpr ⟨t, hrun, Loops.bind_eq_ok.mpr ⟨recipe', hgen, rfl⟩⟩
  refine ⟨_, ks, hseal, rfl, rfl, hsealed.cipher, ?_, hready, hsealed.keyRecipeFile, rfl⟩
  rwa [List.length_map] at hrecipe

/-! ## Full batches -/

@[simp] theorem chunkMsgs_sendBaselineChunks (s : BaselineSender) :
    (sendBaselineChunks s).chunkMsgs =
      s.chunkMsgs ++ [baselineMsg .clientUploadChunk s.cipher] := by
  simp [BaselineSender.chunkMsgs, sendBaselineChunks, baselineMsg]

@[simp] theorem chunkMsgs_sendBaselineRecipes (s : BaselineSender) :
    (sendBaselineRecipes s).chunkMsgs = s.chunkMsgs := by
  simp [BaselineSender.chunkMsgs, sendBaselineRecipes, baselineMsg]

theorem SenderSealed.chunkMsgs {ks : List KeyedChunk} {s s' : BaselineSender}
    (h : SenderSealed p methodType entries ks s s') : s'.chunkMsgs = s.chunkMsgs := by
  rw [BaselineSender.chunkMsgs, h.sent, BaselineSender.chunkMsgs]

/-- Sending the recipes, or not, is seen in the recipe buffer only. -/
theorem SenderSealed.sendRecipes {ks : List KeyedChunk} {s s' : BaselineSender}
    (h : SenderSealed p methodType entries ks s s') (c : Prop) [Decidable c] :
    (if c then sendBaselineRecipes s' else s').plain = s.plain ∧
      (if c then sendBaselineRecipes s' else s').cipher = s'.cipher ∧
      (if c then sendBaselineRecipes s' else s').dae = s'.dae ∧
      (if c then sendBaselineRecipes s' else s').chunkMsgs = s.chunkMsgs := by
  by_cases hc : c
  · rw [if_pos hc, chunkMsgs_sendBaselineRecipes, h.chunkMsgs]
    exact ⟨h.plain, rfl, rfl, rfl⟩
  · rw [if_neg hc, h.chunkMsgs]
    exact ⟨h.plain, rfl, rfl, rfl⟩

/-- What a batch adds: its keys to the file and its message to those sent. -/
structure BatchSent (p : BaselineParams) (methodType : DAEType) (ks : List KeyedChunk)
    (s s' : BaselineSender) : Prop where
  keyRecipeFile : s'.dae.keyRecipeFile = s.dae.keyRecipeFile ++ ks.flatMap KeyedChunk.key
  chunkMsgs : s'.chunkMsgs = s.chunkMsgs ++ [cipherMsg p methodType ks]

/-- **`ProcessChunkBatch`** of a full batch sends it, and is ready for the next one. -/
theorem sendChunkBatch_ok {batch : List Bytes} {s : BaselineSender}
    (hbatch : BatchWaits p batch s) (hfull : batch.length = p.sendChunkBatchSize)
    (hs : SenderReady p methodType entries s) :
    ∃ s' ks, sendChunkBatch p methodType s = .ok s' ∧ ks.map KeyedChunk.chunk = batch ∧
      BatchSent p methodType ks s s' ∧ s'.plain = s.plain ∧
      ∃ entries', SenderReady p methodType entries' s' := by
  obtain ⟨s₁, ks, hrun, hks, h₁⟩ := sealPlainChunks_ok hbatch hs
  have hkslen : ks.length = p.sendChunkBatchSize := by
    rw [← hfull, ← hks, List.length_map]
  let c : Prop := s₁.recipe.currentItemNum.toNat % p.sendRecipeBatchSize = 0
  let s₂ : BaselineSender := if c then sendBaselineRecipes s₁ else s₁
  obtain ⟨hplain, hcipher, hdae, hmsgs⟩ := h₁.sendRecipes c
  have hrecipe : ∃ entries', RecipeRoom p entries' s₂.recipe := by
    by_cases hc : c
    · refine ⟨0, ?_⟩
      simp only [s₂, if_pos hc]
      exact recipeRoom_reset _ h₁.recipe.length
    · refine ⟨entries + p.sendChunkBatchSize, ?_⟩
      simp only [s₂, if_neg hc]
      exact hs.recipe.next (hkslen ▸ h₁.recipe) hc
  have hwritten : Written (chunkBufferSize p) (ciphertexts p methodType ks) s₂.cipher :=
    hcipher ▸ h₁.cipher
  have hlen : (ciphertexts p methodType ks).length = p.sendChunkBatchSize := by
    rw [ciphertexts, List.length_map, hkslen]
  have hne : ciphertexts p methodType ks ≠ [] := by
    intro hnil
    rw [hnil] at hlen
    exact p.sendChunkBatchSize_pos.ne hlen
  have hmod := (hwritten.full_iff hne hlen.le).mpr hlen
  have hsend : sendChunkBatch p methodType s = .ok (sendBaselineChunks s₂) := by
    refine Loops.bind_eq_ok.mpr ⟨s₁, hrun, ?_⟩
    exact congrArg Except.ok (if_pos hmod)
  obtain ⟨entries', hroom⟩ := hrecipe
  refine ⟨_, ks, hsend, hks, ⟨?_, ?_⟩, hplain, entries', ?_, hroom, hdae ▸ h₁.dae⟩
  · exact (congrArg DAE.keyRecipeFile hdae).trans h₁.keyRecipeFile
  · rw [chunkMsgs_sendBaselineChunks, baselineMsg_eq_cipherMsg hwritten, hmsgs]
  · exact written_reset hwritten.length

/-! ## The run -/

/-- What the upload of some batches leaves: their keys in the file and their messages sent. -/
structure Uploaded (p : BaselineParams) (methodType : DAEType) (most : Nat)
    (groups : List (List KeyedChunk)) (s : BaselineSender) : Prop where
  keyRecipeFile : s.dae.keyRecipeFile = groups.flatten.flatMap KeyedChunk.key
  chunkMsgs : s.chunkMsgs = groups.map (cipherMsg p methodType)
  batches : ∀ g ∈ groups, (frames (g.map KeyedChunk.chunk)).length ≤ most

/-- Between two chunks: full batches were uploaded, and fewer than a batch of chunks wait. -/
structure Uploading (p : BaselineParams) (methodType : DAEType) (most : Nat) (seen : List Bytes)
    (groups : List (List KeyedChunk)) (rest : List Bytes) (s : BaselineSender) : Prop
    extends Uploaded p methodType most groups s where
  filling : Filling p.sendChunkBatchSize seen (groups.map (List.map KeyedChunk.chunk)) rest
  sizes : ∀ chunk ∈ rest, chunk.length ≤ maxChunkSize
  plain : Written (chunkBufferSize p) rest s.plain
  ready : ∃ entries, SenderReady p methodType entries s

variable {most : Nat} {groups : List (List KeyedChunk)} {rest seen : List Bytes}
  {s : BaselineSender}

theorem Uploaded.batchSent {ks : List KeyedChunk} {s' : BaselineSender}
    (h : Uploaded p methodType most groups s) (hsent : BatchSent p methodType ks s s')
    (hks : (frames (ks.map KeyedChunk.chunk)).length ≤ most) :
    Uploaded p methodType most (groups ++ [ks]) s' where
  keyRecipeFile := by
    rw [hsent.keyRecipeFile, h.keyRecipeFile, List.flatten_append, List.flatten_singleton,
      List.flatMap_append]
  chunkMsgs := by rw [hsent.chunkMsgs, h.chunkMsgs, List.map_append, List.map_singleton]
  batches := by
    intro g hg
    rcases List.mem_append.mp hg with hg | hg
    · exact h.batches g hg
    · rwa [List.mem_singleton.mp hg]

theorem written_freshBuffer (heap : Nat → UInt8) (size : Nat) :
    Written size [] (freshBuffer heap size) :=
  written_reset (b := freshBuffer heap size) (length_freshBytes _ _)

theorem uploading_init (p : BaselineParams) (methodType : DAEType) (most : Nat)
    (heap : Nat → UInt8) :
    Uploading p methodType most [] [] [] (.init p methodType heap) where
  keyRecipeFile := rfl
  chunkMsgs := rfl
  batches := by simp
  filling := filling_nil p.sendChunkBatchSize_pos
  sizes := by simp
  plain := written_freshBuffer heap _
  ready := ⟨0, written_freshBuffer heap _,
    recipeRoom_reset (freshBuffer heap _) (length_freshBytes _ _),
    ⟨rfl, rfl, length_freshBytes _ _⟩⟩

/-- The frames of at most a batch of chunks have room in a buffer. -/
theorem frames_le_chunkBufferSize {batch : List Bytes}
    (hlen : batch.length ≤ p.sendChunkBatchSize)
    (hsizes : ∀ chunk ∈ batch, chunk.length ≤ maxChunkSize) :
    (frames batch).length ≤ chunkBufferSize p :=
  (length_frames_le hsizes).trans (Nat.mul_le_mul_right _ hlen)

/-- A chunk and those that wait, in the plain buffer. -/
structure Appended (p : BaselineParams) (batch : List Bytes) (plain : FrameBuffer) : Prop where
  plain : Written (chunkBufferSize p) batch plain
  le : batch.length ≤ p.sendChunkBatchSize
  sizes : ∀ chunk ∈ batch, chunk.length ≤ maxChunkSize
  nonempty : batch ≠ []

theorem Appended.waits {batch : List Bytes} {plain : FrameBuffer} (h : Appended p batch plain)
    (s : BaselineSender) : BatchWaits p batch { s with plain := plain } :=
  ⟨h.plain, h.le, frames_le_chunkBufferSize h.le h.sizes, h.nonempty⟩

/-- The buffer is a full batch exactly when the counter says so. -/
theorem Appended.full_iff {batch : List Bytes} {plain : FrameBuffer} (h : Appended p batch plain) :
    plain.currentItemNum.toNat % p.sendChunkBatchSize = 0 ↔
      batch.length = p.sendChunkBatchSize :=
  h.plain.full_iff h.nonempty h.le

/-- `AddChunkToPlainBuffer`. -/
theorem Uploading.append (hmost : most ≤ 2 ^ 32)
    (h : Uploading p methodType most seen groups rest s) (chunk : Chunk)
    (hle : (frames (rest ++ [chunk.val])).length ≤ most) :
    ∃ plain, s.plain.append chunk.val = some plain ∧ Appended p (rest ++ [chunk.val]) plain := by
  have hsizes := sizes_concat h.sizes chunk.property
  have hlen : (rest ++ [chunk.val]).length ≤ p.sendChunkBatchSize := by
    rw [List.length_append]
    exact h.filling.lt
  obtain ⟨plain, happend, hplain⟩ :=
    h.plain.append (hle.trans hmost) (frames_le_chunkBufferSize hlen hsizes)
  exact ⟨plain, happend, hplain, hlen, hsizes, by simp⟩

/-- A sender is ready whatever its plain buffer holds. -/
theorem SenderReady.withPlain (h : SenderReady p methodType entries s) (plain : FrameBuffer) :
    SenderReady p methodType entries { s with plain := plain } :=
  ⟨h.cipher, h.recipe, h.dae⟩

/-- The chunks that wait are a batch, if there are any. -/
theorem Uploading.batchWaits (h : Uploading p methodType most seen groups rest s)
    (hne : rest ≠ []) : BatchWaits p rest s :=
  ⟨h.plain, h.filling.lt.le, frames_le_chunkBufferSize h.filling.lt.le h.sizes, hne⟩

/-- If none waits, `SealPlainChunks` does nothing. -/
theorem Uploading.seal_empty (h : Uploading p methodType most seen groups [] s) :
    sealPlainChunks p methodType s = .ok s :=
  if_neg (not_not.mpr h.plain.currentItemNum)

/-- A chunk that does not complete its batch waits. -/
theorem addChunk_waits (h : Uploading p methodType most seen groups rest s) {chunk : Chunk}
    {plain : FrameBuffer} (happend : s.plain.append chunk.val = some plain)
    (hplain : Appended p (rest ++ [chunk.val]) plain)
    (hmod : plain.currentItemNum.toNat % p.sendChunkBatchSize ≠ 0) :
    addChunk p methodType s chunk = .ok { s with plain := plain } ∧
      Uploading p methodType most (seen ++ [chunk.val]) groups (rest ++ [chunk.val])
        { s with plain := plain } := by
  obtain ⟨entries, hready⟩ := h.ready
  have hlt : rest.length + 1 < p.sendChunkBatchSize := by
    have hlen := hplain.le
    have hfull := hplain.full_iff
    rw [List.length_append] at hlen hfull
    exact Nat.lt_of_le_of_ne hlen fun heq => hmod (hfull.mpr heq)
  have hadd : addChunk p methodType s chunk = .ok { s with plain := plain } := by
    refine Loops.bind_eq_ok.mpr ⟨plain, by rw [happend, inRange], ?_⟩
    exact if_neg hmod
  exact ⟨hadd, ⟨h.keyRecipeFile, h.chunkMsgs, h.batches⟩, h.filling.grow hlt, hplain.sizes,
    hplain.plain, entries, hready.withPlain plain⟩

/-- A chunk that completes its batch sends it. -/
theorem addChunk_full (h : Uploading p methodType most seen groups rest s) {chunk : Chunk}
    (hle : (frames (rest ++ [chunk.val])).length ≤ most)
    {plain : FrameBuffer} (happend : s.plain.append chunk.val = some plain)
    (hplain : Appended p (rest ++ [chunk.val]) plain)
    (hmod : plain.currentItemNum.toNat % p.sendChunkBatchSize = 0) :
    ∃ s₂ ks, sendChunkBatch p methodType { s with plain := plain } = .ok s₂ ∧
      ks.map KeyedChunk.chunk = rest ++ [chunk.val] ∧
      addChunk p methodType s chunk = .ok { s₂ with plain := s₂.plain.reset } ∧
      Uploading p methodType most (seen ++ [chunk.val]) (groups ++ [ks]) []
        { s₂ with plain := s₂.plain.reset } := by
  obtain ⟨entries, hready⟩ := h.ready
  obtain ⟨s₂, ks, hrun, hks, hsent, hsame, entries', hready₂⟩ :=
    sendChunkBatch_ok (hplain.waits s) (hplain.full_iff.mp hmod) (hready.withPlain plain)
  have hadd : addChunk p methodType s chunk = .ok { s₂ with plain := s₂.plain.reset } := by
    refine Loops.bind_eq_ok.mpr ⟨plain, by rw [happend, inRange], ?_⟩
    dsimp only
    rw [if_pos hmod]
    exact Loops.bind_eq_ok.mpr ⟨s₂, hrun, rfl⟩
  have huploaded : Uploaded p methodType most (groups ++ [ks]) s₂ :=
    Uploaded.batchSent h.toUploaded ⟨hsent.keyRecipeFile, hsent.chunkMsgs⟩ (hks ▸ hle)
  have hlast : rest.length + 1 = p.sendChunkBatchSize := by
    have heq := hplain.full_iff.mp hmod
    rwa [List.length_append] at heq
  refine ⟨s₂, ks, hrun, hks, hadd, ⟨huploaded.keyRecipeFile, huploaded.chunkMsgs,
    huploaded.batches⟩, ?_, by simp, ?_, entries', hready₂.withPlain _⟩
  · rw [List.map_append, List.map_singleton, hks]
    exact h.filling.close hlast
  · exact written_reset (hsame ▸ hplain.plain.length)

/-- **A chunk.** -/
theorem addChunk_ok (hmost : most ≤ 2 ^ 32) (h : Uploading p methodType most seen groups rest s)
    (chunk : Chunk) {post : List Bytes}
    (hbatches : ∀ k, (frames (((seen ++ chunk.val :: post).drop
      (k * p.sendChunkBatchSize)).take p.sendChunkBatchSize)).length ≤ most) :
    ∃ s' groups' rest', addChunk p methodType s chunk = .ok s' ∧
      Uploading p methodType most (seen ++ [chunk.val]) groups' rest' s' := by
  have hle := h.filling.frames_le hbatches
  obtain ⟨plain, happend, hplain⟩ := h.append hmost chunk hle
  by_cases hmod : plain.currentItemNum.toNat % p.sendChunkBatchSize = 0
  · obtain ⟨s₂, ks, -, -, hadd, hs₂⟩ := addChunk_full h hle happend hplain hmod
    exact ⟨_, _, _, hadd, hs₂⟩
  · obtain ⟨hadd, hs⟩ := addChunk_waits h happend hplain hmod
    exact ⟨_, _, _, hadd, hs⟩

/-! ## The end -/

/-- What an upload of chunks leaves: they went in batches, all but the last of them full. -/
structure UploadDone (p : BaselineParams) (methodType : DAEType) (most : Nat)
    (chunks : List Bytes) (groups : List (List KeyedChunk)) (s : BaselineSender) : Prop
    extends Uploaded p methodType most groups s where
  chunks : groups.flatten.map KeyedChunk.chunk = chunks
  nonempty : ∀ g ∈ groups, g ≠ []
  full : ∀ g ∈ groups.dropLast, g.length = p.sendChunkBatchSize

/-- The recipe end changes neither the keys nor the chunk messages. -/
theorem sendBaselineRecipeEnd_ok (recipeHead : FileRecipeHead)
    (hlen : s.cipher.dataBuffer.length = chunkBufferSize p) :
    ∃ s', sendBaselineRecipeEnd s recipeHead = .ok s' ∧ s'.dae = s.dae ∧
      s'.chunkMsgs = s.chunkMsgs := by
  have hroom : 0 + recipeHead.toBytes.length ≤ s.cipher.dataBuffer.length := by
    have hpos := Nat.mul_le_mul_right sizeofChunk p.sendChunkBatchSize_pos
    rw [recipeHead.length_toBytes, hlen, Nat.zero_add]
    exact Nat.le_trans (by decide) hpos
  have hwrite : inRange (Buffer.write s.cipher.dataBuffer 0 recipeHead.toBytes) =
      .ok (Buffer.overwrite s.cipher.dataBuffer 0 recipeHead.toBytes) := by
    rw [Buffer.write, if_pos hroom, inRange]
  refine ⟨_, Loops.bind_eq_ok.mpr ⟨_, hwrite, rfl⟩, rfl, ?_⟩
  simp [BaselineSender.chunkMsgs, baselineMsg]

theorem Uploading.full (h : Uploading p methodType most seen groups rest s) :
    ∀ g ∈ groups, g.length = p.sendChunkBatchSize := by
  intro g hg
  have hmap := h.filling.full (g.map KeyedChunk.chunk) (List.mem_map_of_mem hg)
  rwa [List.length_map] at hmap

theorem Uploading.nonempty (h : Uploading p methodType most seen groups rest s) :
    ∀ g ∈ groups, g ≠ [] := by
  rintro g hg rfl
  exact p.sendChunkBatchSize_pos.ne (h.full [] hg)

/-- `ProcessRecipeEnd` when no chunk waits. -/
theorem finishUpload_empty (h : Uploading p methodType most seen groups [] s)
    (recipeHead : FileRecipeHead) :
    ∃ s', finishUpload p methodType s recipeHead = .ok s' ∧
      UploadDone p methodType most seen groups s' := by
  obtain ⟨entries, hready⟩ := h.ready
  have hseal := h.seal_empty
  let s₂ : BaselineSender := if s.recipe.currentItemNum ≠ 0 then sendBaselineRecipes s else s
  have hs₂ : s₂.cipher = s.cipher ∧ s₂.dae = s.dae ∧ s₂.chunkMsgs = s.chunkMsgs := by
    by_cases hc : s.recipe.currentItemNum ≠ 0
    · simp only [s₂, if_pos hc]
      exact ⟨rfl, rfl, chunkMsgs_sendBaselineRecipes s⟩
    · simp only [s₂, if_neg hc, and_self]
  obtain ⟨hcipher, hdae, hmsgs⟩ := hs₂
  have hnone : ¬ s₂.cipher.currentItemNum ≠ 0 := by
    rw [not_not, hcipher]
    exact hready.cipher.currentItemNum
  obtain ⟨s', hend, hdae', hmsgs'⟩ :=
    sendBaselineRecipeEnd_ok (p := p) (s := s₂) recipeHead (hcipher ▸ hready.cipher.length)
  have hrun : finishUpload p methodType s recipeHead = .ok s' := by
    refine Loops.bind_eq_ok.mpr ⟨s, hseal, ?_⟩
    dsimp only
    rw [if_neg hnone]
    exact hend
  refine ⟨s', hrun, ⟨?_, ?_, h.batches⟩, ?_, h.nonempty, ?_⟩
  · rw [hdae', hdae, h.keyRecipeFile]
  · rw [hmsgs', hmsgs, h.chunkMsgs]
  · rw [List.map_flatten, ← h.filling.eq, List.append_nil]
  · exact fun g hg => h.full g (List.dropLast_subset _ hg)

/-- `ProcessRecipeEnd` when chunks wait. -/
theorem finishUpload_waiting (hne : rest ≠ []) (hmost : (frames rest).length ≤ most)
    (h : Uploading p methodType most seen groups rest s) (recipeHead : FileRecipeHead) :
    ∃ s' ks, finishUpload p methodType s recipeHead = .ok s' ∧
      UploadDone p methodType most seen (groups ++ [ks]) s' := by
  obtain ⟨entries, hready⟩ := h.ready
  obtain ⟨s₁, ks, hseal, hks, h₁⟩ := sealPlainChunks_ok (h.batchWaits hne) hready
  let s₂ : BaselineSender := if s₁.recipe.currentItemNum ≠ 0 then sendBaselineRecipes s₁ else s₁
  obtain ⟨-, hcipher, hdae, hmsgs⟩ := h₁.sendRecipes (s₁.recipe.currentItemNum ≠ 0)
  have hwritten : Written (chunkBufferSize p) (ciphertexts p methodType ks) s₂.cipher :=
    hcipher ▸ h₁.cipher
  have hksne : ks ≠ [] := by
    rintro rfl
    exact hne hks.symm
  have hsome : s₂.cipher.currentItemNum ≠ 0 := by
    intro hzero
    have hcount := hwritten.toNat_currentItemNum
    rw [hzero, ciphertexts, List.length_map] at hcount
    exact hksne (List.length_eq_zero_iff.mp hcount.symm)
  obtain ⟨s', hend, hdae', hmsgs'⟩ :=
    sendBaselineRecipeEnd_ok (p := p) (s := sendBaselineChunks s₂) recipeHead hwritten.length
  have hrun : finishUpload p methodType s recipeHead = .ok s' := by
    refine Loops.bind_eq_ok.mpr ⟨s₁, hseal, ?_⟩
    dsimp only
    rw [if_pos hsome]
    exact hend
  have hsent : BatchSent p methodType ks s s' := by
    refine ⟨?_, ?_⟩
    · rw [hdae']
      exact (congrArg DAE.keyRecipeFile hdae).trans h₁.keyRecipeFile
    · rw [hmsgs', chunkMsgs_sendBaselineChunks, baselineMsg_eq_cipherMsg hwritten, hmsgs]
  refine ⟨s', ks, hrun, h.toUploaded.batchSent hsent (hks ▸ hmost), ?_, ?_, ?_⟩
  · rw [List.map_flatten, List.map_append, List.flatten_append, ← h.filling.eq,
      List.map_singleton, List.flatten_singleton, hks]
  · intro g hg
    rcases List.mem_append.mp hg with hg | hg
    · exact h.nonempty g hg
    · rwa [List.mem_singleton.mp hg]
  · rw [List.dropLast_concat]
    exact h.full

/-- **`ProcessRecipeEnd`** uploads the chunks that wait. -/
theorem finishUpload_ok (hmost : (frames rest).length ≤ most)
    (h : Uploading p methodType most seen groups rest s) (recipeHead : FileRecipeHead) :
    ∃ s' groups', finishUpload p methodType s recipeHead = .ok s' ∧
      UploadDone p methodType most seen groups' s' := by
  by_cases hrest : rest = []
  · subst hrest
    obtain ⟨s', hrun, hdone⟩ := finishUpload_empty h recipeHead
    exact ⟨s', groups, hrun, hdone⟩
  · obtain ⟨s', ks, hrun, hdone⟩ := finishUpload_waiting hrest hmost h recipeHead
    exact ⟨s', groups ++ [ks], hrun, hdone⟩

/-- Every batch of chunks has at most this many bytes in a buffer. -/
def BatchesLE (n most : Nat) (chunks : List Bytes) : Prop :=
  ∀ k, (frames ((chunks.drop (k * n)).take n)).length ≤ most

theorem addChunks_ok (methodType : DAEType) (hmost : most ≤ 2 ^ 32) (heap : Nat → UInt8)
    {chunks : List Chunk}
    (hbatches : BatchesLE p.sendChunkBatchSize most (chunks.map (·.val))) :
    ∃ s, chunks.foldlM (addChunk p methodType) (.init p methodType heap) = .ok s ∧
      ∃ groups rest, Uploading p methodType most (chunks.map (·.val)) groups rest s :=
  Loops.foldlM_ok
    (P := fun (pre : List Chunk) s =>
      ∃ groups rest, Uploading p methodType most (pre.map (·.val)) groups rest s)
    ⟨[], [], uploading_init p methodType most heap⟩ (by
      rintro pre chunk post s rfl ⟨groups, rest, hs⟩
      rw [List.map_append, List.map_cons] at hbatches
      obtain ⟨s', groups', rest', hrun, hs'⟩ := addChunk_ok hmost hs chunk hbatches
      exact ⟨s', hrun, groups', rest', by rwa [List.map_append, List.map_singleton]⟩)

/-- The run of an upload is that of its chunks and of the end. -/
theorem baselineSenderRun_items {heap : Nat → UInt8} {chunks : List Chunk} {s' : BaselineSender}
    (hchunks : chunks.foldlM (addChunk p methodType) (.init p methodType heap) = .ok s)
    {recipeHead : FileRecipeHead} (hend : finishUpload p methodType s recipeHead = .ok s') :
    baselineSenderRun p methodType heap (uploadItems chunks recipeHead) = .ok s' := by
  rw [baselineSenderRun, uploadItems, List.foldlM_append, List.foldlM_map]
  refine Loops.bind_eq_ok.mpr ⟨s, hchunks, ?_⟩
  rw [List.foldlM_cons]
  exact Loops.bind_eq_ok.mpr ⟨s', hend, rfl⟩

/-- **Any upload** whose batches have at most `2 ^ 32` bytes. -/
theorem baselineSenderRun_ok (methodType : DAEType) (hmost : most ≤ 2 ^ 32)
    (heap : Nat → UInt8) {chunks : List Chunk}
    (hbatches : BatchesLE p.sendChunkBatchSize most (chunks.map (·.val)))
    (recipeHead : FileRecipeHead) :
    ∃ s groups, baselineSenderRun p methodType heap (uploadItems chunks recipeHead) = .ok s ∧
      UploadDone p methodType most (chunks.map (·.val)) groups s := by
  obtain ⟨s, hrun, groups, rest, hs⟩ := addChunks_ok methodType hmost heap hbatches
  obtain ⟨s', groups', hend, hdone⟩ :=
    finishUpload_ok (hs.filling.rest_le hbatches) hs recipeHead
  exact ⟨s', groups', baselineSenderRun_items hrun hend, hdone⟩

end Debe
