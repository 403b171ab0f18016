import Debe.BatchParser
import Debe.Chunker
import Debe.RecvDecoder
import Debe.Lib.FrameBuffer

/-!
# Framing on both ways

Chunks travel in messages in both directions.  `DataSender` collects size-prefixed chunks in
`sendChunkBuf_`, encrypts the buffer into `sendEncBuffer_` whenever the number of chunks is a
multiple of the batch size, and sends that behind a copy of the header; the enclave does the
same with the chunks it recovers.  The receivers decrypt `dataSize` bytes and walk
`currentItemNum` size-prefixed chunks.

`RecvDecoder` and `FreqIndex` have messages as values whose sizes are natural numbers.  Here the
messages are made in the buffers, under a header of two 32-bit counters, from which the
receivers take both numbers.
-/

namespace Debe

open Records LittleEndian FrameBuffer

/-- `sizeof(Chunk_t)`. -/
def sizeofChunk : Nat := 4 + maxChunkSize

/-- A message: the fields of its header and the `dataSize` bytes behind it. -/
structure FramedMsg where
  messageType : MessageType
  currentItemNum : UInt32
  dataSize : UInt32
  data : Bytes
  deriving DecidableEq, Repr

/-- A sender: the buffer that is filled, the buffer that is encrypted into, and the messages
sent so far. -/
structure FrameSender where
  plain : FrameBuffer
  enc : Bytes
  sent : List FramedMsg
  deriving DecidableEq, Repr

/-- A buffer that was just allocated: `size` bytes with any contents. -/
def freshBytes (heap : Nat → UInt8) (size : Nat) : Bytes := (List.range size).map heap

/-- The constructor.  Both buffers have room for a batch of chunks. -/
def FrameSender.init (p : Params) (heap : Nat → UInt8) : FrameSender where
  plain := {
    currentItemNum := 0
    dataSize := 0
    dataBuffer := freshBytes heap (p.sendChunkBatchSize * sizeofChunk) }
  enc := freshBytes heap (p.sendChunkBatchSize * sizeofChunk)
  sent := []

section Senders

variable (p : Params) (sessionKey : Bytes)

/-- Encrypt the buffer, send it behind its header, and start the buffer anew. -/
def FrameSender.sendBatch (messageType : MessageType) (s : FrameSender) :
    Except Fault FrameSender := do
  let enc ← inRange (Buffer.write s.enc 0 (p.crypto.sessionKeyEnc sessionKey s.plain.payload))
  return {
    plain := s.plain.reset
    enc := enc
    sent := s.sent ++ [{
      messageType := messageType
      currentItemNum := s.plain.currentItemNum
      dataSize := s.plain.dataSize
      data := enc.take s.plain.dataSize.toNat }] }

/-- `DataSender::SendChunks`. -/
def sendChunks (s : FrameSender) : Except Fault FrameSender :=
  s.sendBatch p sessionKey .clientUploadChunk

/-- `DataSender::ProcessChunk`. -/
def processChunk (s : FrameSender) (inputChunk : Chunk) : Except Fault FrameSender := do
  let plain ← inRange (s.plain.append inputChunk.val)
  let s := { s with plain := plain }
  if plain.currentItemNum.toNat % p.sendChunkBatchSize = 0 then sendChunks p sessionKey s
  else return s

/-- `DataSender::ProcessRecipeEnd`.  The recipe end is not encrypted. -/
def sendRecipeEnd (s : FrameSender) (recipeHead : FileRecipeHead) : Except Fault FrameSender := do
  let s ← if s.plain.currentItemNum ≠ 0 then sendChunks p sessionKey s else .ok s
  let dataBuffer ← inRange (Buffer.write s.plain.dataBuffer 0 recipeHead.toBytes)
  let plain := { s.plain with
    dataSize := UInt32.ofNat fileRecipeHeadSize
    dataBuffer := dataBuffer }
  return { s with
    plain := plain
    sent := s.sent ++ [{
      messageType := .clientUploadRecipeEnd
      currentItemNum := plain.currentItemNum
      dataSize := plain.dataSize
      data := plain.payload }] }

/-- The body of the loop of `DataSender::Run`. -/
def dataSenderStep (s : FrameSender) : MQData → Except Fault FrameSender
  | .chunk data => processChunk p sessionKey s data
  | .recipeEnd recipeHead => sendRecipeEnd p sessionKey s recipeHead

/-- `DataSender::Run` over what it takes out of the queue. -/
def dataSenderRun (heap : Nat → UInt8) (items : List MQData) : Except Fault FrameSender :=
  items.foldlM (dataSenderStep p sessionKey) (.init p heap)

/-- The chunk that `RecoverOneChunk` makes of a chunk buffer: decrypted, and decompressed if
that gives anything. -/
def recoveredChunk (chunkBuffer : Bytes) (chunkSize : Nat) : Bytes :=
  let iv := (chunkBuffer.drop chunkSize).take cryptoBlockSize
  decompressOrKeep (p.crypto.decryptionWithKeyIV p.enclaveKey iv (chunkBuffer.take chunkSize))

/-- `RecoverOneChunk` into a buffer behind a header.  The decrypted chunk lies on the stack, and
`LZ4_decompress_safe` may use `MAX_CHUNK_SIZE` bytes of the buffer. -/
def recoverIntoBuffer (chunkBuffer : Bytes) (chunkSize : Nat) (b : FrameBuffer) :
    Except Fault FrameBuffer :=
  if maxChunkSize < chunkSize ∨ b.dataBuffer.length < b.dataSize.toNat + 4 + maxChunkSize then
    .error .outOfRange
  else do
    let chunk := recoveredChunk p chunkBuffer chunkSize
    let dataBuffer ← inRange (Buffer.write b.dataBuffer b.dataSize.toNat (encode 4 chunk.length))
    let dataBuffer ← inRange (Buffer.write dataBuffer (b.dataSize.toNat + 4) chunk)
    return {
      currentItemNum := b.currentItemNum + 1
      dataSize := b.dataSize + UInt32.ofNat (4 + chunk.length)
      dataBuffer := dataBuffer }

/-- The loop body over the collected entries: recover a chunk, and send the batch if it is full
or the last. -/
def restoreChunk (endFlag : Bool) (s : FrameSender) (stored : Bytes × Nat) :
    Except Fault FrameSender := do
  let plain ← recoverIntoBuffer p stored.1 stored.2 s.plain
  let s := { s with plain := plain }
  if plain.currentItemNum.toNat % p.sendChunkBatchSize = 0 ∨ endFlag = true then
    s.sendBatch p sessionKey (if endFlag then .serverRestoreFinal else .serverRestoreChunk)
  else return s

/-- The entries that are left for `ProcRecipeTailBatch`, the last of them under the flag.
Without entries it sends what waits. -/
def restoreTail : List (Bytes × Nat) → FrameSender → Except Fault FrameSender
  | [], s => s.sendBatch p sessionKey .serverRestoreFinal
  | [stored], s => restoreChunk p sessionKey true s stored
  | stored :: rest, s => do
      let s ← restoreChunk p sessionKey false s stored
      restoreTail rest s

/-- The chunks that are recovered while recipe batches come in, and those of the tail. -/
def restoreSend (heap : Nat → UInt8) (body tail : List (Bytes × Nat)) :
    Except Fault FrameSender := do
  let s ← body.foldlM (restoreChunk p sessionKey false) (.init p heap)
  restoreTail p sessionKey tail s

/-! ## The receivers -/

/-- The chunks that a receiver finds in a message.  Behind the decrypted bytes its buffer holds
whatever was there before. -/
def framedChunks (stale : Nat → UInt8) (m : FramedMsg) : List Bytes :=
  let mem := recvMemory
    (p.crypto.sessionKeyDec sessionKey (m.data.take m.dataSize.toNat)) stale
  (parseChunks mem m.currentItemNum.toNat 0).map (ParsedChunk.bytes mem)

/-- `DataRetriever::ProcessChunkBatch`: every chunk is copied into a `Chunk_t` and pushed. -/
def retrieveChunks (stale : Nat → UInt8) (m : FramedMsg) : Except Fault (List Chunk) :=
  (framedChunks p sessionKey stale m).mapM fun chunk =>
    if h : chunk.length ≤ maxChunkSize then .ok ⟨chunk, h⟩ else .error .outOfRange

end Senders

/-! ## One batch -/

variable {p : Params} (sessionKey : Bytes)

/-- The size of both buffers. -/
abbrev sendBufferSize (p : Params) : Nat := p.sendChunkBatchSize * sizeofChunk

/-- The message of a batch. -/
def batchMsg (p : Params) (sessionKey : Bytes) (messageType : MessageType) (chunks : List Bytes) :
    FramedMsg where
  messageType := messageType
  currentItemNum := UInt32.ofNat chunks.length
  dataSize := UInt32.ofNat (frames chunks).length
  data := p.crypto.sessionKeyEnc sessionKey (frames chunks)

@[simp] theorem length_freshBytes (heap : Nat → UInt8) (size : Nat) :
    (freshBytes heap size).length = size := by
  simp [freshBytes]

/-- What is sent, whatever the header says. -/
theorem sendBatch_eq {s : FrameSender} (messageType : MessageType)
    (hle : s.plain.dataSize.toNat ≤ s.plain.dataBuffer.length)
    (henc : s.enc.length = s.plain.dataBuffer.length) :
    s.sendBatch p sessionKey messageType = .ok {
      plain := s.plain.reset
      enc := Buffer.overwrite s.enc 0 (p.crypto.sessionKeyEnc sessionKey s.plain.payload)
      sent := s.sent ++ [{
        messageType := messageType
        currentItemNum := s.plain.currentItemNum
        dataSize := s.plain.dataSize
        data := p.crypto.sessionKeyEnc sessionKey s.plain.payload }] } := by
  have hlen : (p.crypto.sessionKeyEnc sessionKey s.plain.payload).length =
      s.plain.dataSize.toNat := by
    rw [p.crypto.length_sessionKeyEnc, FrameBuffer.payload, List.length_take_of_le hle]
  have hroom : 0 + (p.crypto.sessionKeyEnc sessionKey s.plain.payload).length ≤ s.enc.length := by
    omega
  have hdata : (Buffer.overwrite s.enc 0 (p.crypto.sessionKeyEnc sessionKey s.plain.payload)).take
      s.plain.dataSize.toNat = p.crypto.sessionKeyEnc sessionKey s.plain.payload := by
    rw [Buffer.overwrite, List.take_zero, List.nil_append, ← hlen, List.take_left]
  simp only [FrameSender.sendBatch, Buffer.write, if_pos hroom, inRange, bind, Except.bind, pure,
    Except.pure, hdata]

/-- What is sent of a buffer that holds records. -/
theorem sendBatch_holds {s : FrameSender} {size : Nat} {chunks : List Bytes}
    (messageType : MessageType) (h : Holds size chunks s.plain) (henc : s.enc.length = size) :
    ∃ enc, enc.length = size ∧ s.sendBatch p sessionKey messageType = .ok {
      plain := s.plain.reset
      enc := enc
      sent := s.sent ++ [batchMsg p sessionKey messageType chunks] } := by
  have hle : s.plain.dataSize.toNat ≤ s.plain.dataBuffer.length := by
    rw [h.toNat_dataSize]
    exact h.begins.length_le
  have hlen : (p.crypto.sessionKeyEnc sessionKey s.plain.payload).length ≤ s.enc.length := by
    rw [p.crypto.length_sessionKeyEnc, FrameBuffer.payload, List.length_take_of_le hle, henc,
      ← h.length]
    exact hle
  have hrun := sendBatch_eq (p := p) sessionKey messageType hle (henc.trans h.length.symm)
  refine ⟨_, ?_, by rw [hrun, batchMsg, ← h.currentItemNum, ← h.dataSize, ← h.payload]⟩
  rw [Buffer.length_overwrite (by rw [Nat.zero_add]; exact hlen), henc]

theorem length_le_frames {chunks : List Bytes} {chunk : Bytes} (h : chunk ∈ chunks) :
    chunk.length ≤ (frames chunks).length := by
  obtain ⟨pre, post, rfl⟩ := List.append_of_mem h
  rw [frames_append, frames_cons, List.length_append, List.length_append, length_frame]
  omega

/-- **A batch is received** as it was sent, whatever lies behind it in the buffer. -/
theorem framedChunks_batchMsg (messageType : MessageType) {chunks : List Bytes}
    (h : (frames chunks).length < 2 ^ 32) (stale : Nat → UInt8) :
    framedChunks p sessionKey stale (batchMsg p sessionKey messageType chunks) = chunks := by
  have hcount := four_mul_length_le chunks
  have hnum : (UInt32.ofNat chunks.length).toNat = chunks.length :=
    UInt32.toNat_ofNat_of_lt' (show chunks.length < 2 ^ 32 by omega)
  have htake : (p.crypto.sessionKeyEnc sessionKey (frames chunks)).take (frames chunks).length =
      p.crypto.sessionKeyEnc sessionKey (frames chunks) :=
    List.take_of_length_le (p.crypto.length_sessionKeyEnc _ _).le
  have hsmall : ∀ chunk ∈ chunks, chunk.length < 2 ^ 32 := fun chunk hchunk =>
    Nat.lt_of_le_of_lt (length_le_frames hchunk) h
  have hfits := fits_frames chunks hsmall []
  rw [List.append_nil] at hfits
  unfold framedChunks batchMsg
  dsimp only
  rw [hnum, UInt32.toNat_ofNat_of_lt' h, htake, p.crypto.sessionKeyDec_sessionKeyEnc,
    parseChunks_bytes h (Nat.zero_le _) hfits, List.drop_zero]
  exact readRecords_frames chunks hsmall

/-! ## Room -/

/-- Between two chunks, whatever they are: the header counts those that wait, which are fewer
than a batch, and both buffers have their size. -/
structure Waiting (p : Params) (rest : List Bytes) (s : FrameSender) : Prop where
  counts : Counts (sendBufferSize p) rest s.plain
  enc : s.enc.length = sendBufferSize p
  sizes : ∀ chunk ∈ rest, chunk.length ≤ maxChunkSize
  lt : rest.length < p.sendChunkBatchSize
  lt32 : rest.length < 2 ^ 32

variable {rest : List Bytes} {chunk : Bytes} {s : FrameSender}

theorem waiting_init (p : Params) (heap : Nat → UInt8) : Waiting p [] (.init p heap) where
  counts := ⟨rfl, rfl, length_freshBytes _ _⟩
  enc := length_freshBytes _ _
  sizes := by simp
  lt := p.sendChunkBatchSize_pos
  lt32 := by decide

/-- There is room for one more chunk of the largest size. -/
theorem Waiting.room (h : Waiting p rest s) :
    s.plain.dataSize.toNat + sizeofChunk ≤ sendBufferSize p := by
  have hle := h.counts.toNat_dataSize_le
  have hframes := length_frames_le h.sizes
  have hmul : (rest.length + 1) * sizeofChunk ≤ sendBufferSize p :=
    Nat.mul_le_mul_right _ h.lt
  rw [Nat.succ_mul] at hmul
  unfold sizeofChunk at hmul ⊢
  omega

theorem sizes_concat (hsizes : ∀ q ∈ rest, q.length ≤ maxChunkSize)
    (hchunk : chunk.length ≤ maxChunkSize) :
    ∀ q ∈ rest ++ [chunk], q.length ≤ maxChunkSize :=
  List.forall_mem_append.mpr ⟨hsizes, List.forall_mem_singleton.mpr hchunk⟩

/-- The frames of a batch have room in a buffer. -/
theorem frames_room (hlt : rest.length < p.sendChunkBatchSize)
    (hsizes : ∀ q ∈ rest ++ [chunk], q.length ≤ maxChunkSize) :
    (frames (rest ++ [chunk])).length ≤ sendBufferSize p := by
  have hlen : (rest ++ [chunk]).length ≤ p.sendChunkBatchSize := by
    rw [List.length_append]
    exact hlt
  exact (length_frames_le hsizes).trans (Nat.mul_le_mul_right _ hlen)

/-- **Sending keeps the room.**  Once a chunk has been copied the batch is sent under a
condition that holds whenever the counter is a multiple of the batch size. -/
theorem Waiting.next (h : Waiting p rest s) {plain : FrameBuffer}
    (hcounts : Counts (sendBufferSize p) (rest ++ [chunk]) plain)
    (hchunk : chunk.length ≤ maxChunkSize) (c : Prop) [Decidable c]
    (hc : ¬ c → plain.currentItemNum.toNat % p.sendChunkBatchSize ≠ 0)
    (messageType : MessageType) :
    ∃ s', (if c then FrameSender.sendBatch p sessionKey messageType { s with plain := plain }
        else .ok { s with plain := plain }) = .ok s' ∧ (∃ rest', Waiting p rest' s') ∧
      (¬ c ∧ s'.sent = s.sent ∨
        ∃ m, s'.sent = s.sent ++ [m] ∧ m.messageType = messageType) := by
  have hsizes := sizes_concat h.sizes hchunk
  have hlen : (rest ++ [chunk]).length = rest.length + 1 := List.length_append
  by_cases hsend : c
  · have hle : plain.dataSize.toNat ≤ plain.dataBuffer.length := by
      rw [hcounts.length]
      exact hcounts.toNat_dataSize_le.trans (frames_room h.lt hsizes)
    have henc : s.enc.length = plain.dataBuffer.length := h.enc.trans hcounts.length.symm
    have hpayload : (p.crypto.sessionKeyEnc sessionKey plain.payload).length ≤ s.enc.length := by
      rw [p.crypto.length_sessionKeyEnc, FrameBuffer.payload, List.length_take_of_le hle, henc]
      exact hle
    rw [if_pos hsend, sendBatch_eq (s := { s with plain := plain }) sessionKey messageType hle henc]
    refine ⟨_, rfl, ⟨[], ⟨rfl, rfl, hcounts.length⟩, ?_, by simp, p.sendChunkBatchSize_pos,
      by decide⟩, .inr ⟨_, rfl, rfl⟩⟩
    dsimp only
    rw [Buffer.length_overwrite (by rw [Nat.zero_add]; exact hpayload), h.enc]
  · rw [if_neg hsend]
    obtain ⟨hlt, hlt32⟩ := hcounts.lt_of_not_full (by rw [hlen]; exact h.lt)
      (by rw [hlen]; exact h.lt32) (hc hsend)
    exact ⟨_, rfl, ⟨_, hcounts, h.enc, hsizes, hlt, hlt32⟩, .inl ⟨hsend, rfl⟩⟩

theorem length_recoveredChunk_le (chunkBuffer : Bytes) {chunkSize : Nat}
    (h : chunkSize ≤ maxChunkSize) :
    (recoveredChunk p chunkBuffer chunkSize).length ≤ maxChunkSize := by
  have hraw : (p.crypto.decryptionWithKeyIV p.enclaveKey
      ((chunkBuffer.drop chunkSize).take cryptoBlockSize)
      (chunkBuffer.take chunkSize)).length ≤ maxChunkSize := by
    rw [p.crypto.length_decryptionWithKeyIV]
    exact (List.length_take_le _ _).trans h
  unfold recoveredChunk decompressOrKeep
  dsimp only
  split
  · rename_i out hout
    split
    · exact lz4DecompressSafe_length hout
    · exact hraw
  · exact hraw

/-- `RecoverOneChunk` with room for its record. -/
theorem recoverIntoBuffer_eq {b : FrameBuffer} (chunkBuffer : Bytes) {chunkSize : Nat}
    (hsize : chunkSize ≤ maxChunkSize)
    (hroom : b.dataSize.toNat + sizeofChunk ≤ b.dataBuffer.length) :
    recoverIntoBuffer p chunkBuffer chunkSize b = .ok {
      currentItemNum := b.currentItemNum + 1
      dataSize := b.dataSize + 4 + UInt32.ofNat (recoveredChunk p chunkBuffer chunkSize).length
      dataBuffer := Buffer.overwrite b.dataBuffer b.dataSize.toNat
        (frame (recoveredChunk p chunkBuffer chunkSize)) } := by
  have hchunk := length_recoveredChunk_le (p := p) chunkBuffer hsize
  unfold recoverIntoBuffer
  dsimp only
  generalize recoveredChunk p chunkBuffer chunkSize = chunk at hchunk
  unfold sizeofChunk at hroom
  have hguard : ¬ (maxChunkSize < chunkSize ∨
      b.dataBuffer.length < b.dataSize.toNat + 4 + maxChunkSize) := by omega
  have hfirst : b.dataSize.toNat + (encode 4 chunk.length).length ≤ b.dataBuffer.length := by
    rw [length_encode]
    omega
  have hlen := Buffer.length_overwrite hfirst
  have hsecond : b.dataSize.toNat + 4 + chunk.length ≤
      (Buffer.overwrite b.dataBuffer b.dataSize.toNat (encode 4 chunk.length)).length := by
    omega
  have htwice : Buffer.overwrite
        (Buffer.overwrite b.dataBuffer b.dataSize.toNat (encode 4 chunk.length))
        (b.dataSize.toNat + 4) chunk =
      Buffer.overwrite b.dataBuffer b.dataSize.toNat (frame chunk) := by
    have hle : b.dataSize.toNat ≤ b.dataBuffer.length := by omega
    have hover := Buffer.overwrite_overwrite hle (encode 4 chunk.length) chunk
    rwa [length_encode] at hover
  rw [if_neg hguard]
  simp only [Buffer.write, if_pos hfirst, if_pos hsecond, inRange, bind, Except.bind, pure,
    Except.pure, htwice, UInt32.ofNat_add, UInt32.add_assoc]
  rfl

/-- `ProcessChunk` never leaves a buffer. -/
theorem processChunk_waiting (h : Waiting p rest s) (inputChunk : Chunk) :
    ∃ s', processChunk p sessionKey s inputChunk = .ok s' ∧ (∃ rest', Waiting p rest' s') ∧
      ∃ msgs, s'.sent = s.sent ++ msgs ∧ ∀ m ∈ msgs, m.messageType = .clientUploadChunk := by
  obtain ⟨plain, hplain, hcounts⟩ := h.counts.append (sizes_concat h.sizes inputChunk.property)
    (Nat.mul_le_mul_right _ h.lt)
  obtain ⟨s', hrun, hwaiting, hsent⟩ := h.next sessionKey hcounts
    inputChunk.property (plain.currentItemNum.toNat % p.sendChunkBatchSize = 0) id
    .clientUploadChunk
  refine ⟨s', ?_, hwaiting, ?_⟩
  · simp only [processChunk, hplain, inRange, bind, Except.bind, sendChunks]
    exact hrun
  · rcases hsent with ⟨-, hsent⟩ | ⟨m, hsent, htype⟩
    · exact ⟨[], by rw [hsent, List.append_nil], by simp⟩
    · exact ⟨[m], hsent, by simpa using htype⟩

/-- The loop body over the collected entries never leaves a buffer. -/
theorem restoreChunk_waiting (h : Waiting p rest s) (endFlag : Bool) {stored : Bytes × Nat}
    (hsize : stored.2 ≤ maxChunkSize) :
    ∃ s', restoreChunk p sessionKey endFlag s stored = .ok s' ∧ (∃ rest', Waiting p rest' s') ∧
      (endFlag = false ∧ s'.sent = s.sent ∨ ∃ m, s'.sent = s.sent ++ [m] ∧
        m.messageType = if endFlag then .serverRestoreFinal else .serverRestoreChunk) := by
  have hroom := h.room
  rw [← h.counts.length] at hroom
  have hbuffer := recoverIntoBuffer_eq (p := p) stored.1 hsize hroom
  have hchunk := length_recoveredChunk_le (p := p) stored.1 hsize
  have hframe : s.plain.dataSize.toNat + (frame (recoveredChunk p stored.1 stored.2)).length ≤
      s.plain.dataBuffer.length := by
    rw [length_frame]
    unfold sizeofChunk at hroom
    omega
  have hcounts := h.counts.header (r := recoveredChunk p stored.1 stored.2)
    (Buffer.length_overwrite hframe)
  obtain ⟨s', hrun, hwaiting, hsent⟩ := h.next sessionKey hcounts hchunk
    ((s.plain.currentItemNum + 1).toNat % p.sendChunkBatchSize = 0 ∨ endFlag = true)
    (fun hnot => (not_or.mp hnot).1)
    (if endFlag then .serverRestoreFinal else .serverRestoreChunk)
  refine ⟨s', ?_, hwaiting, ?_⟩
  · simp only [restoreChunk, hbuffer, bind, Except.bind]
    exact hrun
  · rcases hsent with ⟨hnot, hsent⟩ | hsent
    · exact .inl ⟨Bool.eq_false_iff.mpr (not_or.mp hnot).2, hsent⟩
    · exact .inr hsent

/-! ## Content -/

/-- Between two chunks of `seen`, as long as batches can be counted: full batches have been sent
and the chunks that wait are in the buffer. -/
def Sending (p : Params) (sessionKey : Bytes) (messageType : MessageType) (seen : List Bytes)
    (s : FrameSender) : Prop :=
  ∃ groups rest, Filling p.sendChunkBatchSize seen groups rest ∧
    Holds (sendBufferSize p) rest s.plain ∧ s.enc.length = sendBufferSize p ∧
    s.sent = groups.map (batchMsg p sessionKey messageType) ∧
    (∀ g ∈ groups, (frames g).length < 2 ^ 32) ∧ ∀ chunk ∈ rest, chunk.length ≤ maxChunkSize

theorem sending_init (p : Params) (sessionKey : Bytes) (messageType : MessageType)
    (heap : Nat → UInt8) : Sending p sessionKey messageType [] (.init p heap) :=
  ⟨[], [], filling_nil p.sendChunkBatchSize_pos,
    ⟨⟨rfl, rfl, length_freshBytes _ _⟩, by decide, List.nil_prefix⟩, length_freshBytes _ _, rfl,
    by simp, by simp⟩

/-- **Sending keeps the content.** -/
theorem Sending.next {messageType : MessageType} {seen : List Bytes}
    {groups : List (List Bytes)} {plain : FrameBuffer}
    (hfilling : Filling p.sendChunkBatchSize seen groups rest)
    (hholds : Holds (sendBufferSize p) (rest ++ [chunk]) plain)
    (henc : s.enc.length = sendBufferSize p)
    (hsent : s.sent = groups.map (batchMsg p sessionKey messageType))
    (hgroups : ∀ g ∈ groups, (frames g).length < 2 ^ 32)
    (hsizes : ∀ q ∈ rest ++ [chunk], q.length ≤ maxChunkSize) :
    ∃ s', (if plain.currentItemNum.toNat % p.sendChunkBatchSize = 0 then
        FrameSender.sendBatch p sessionKey messageType { s with plain := plain }
      else .ok { s with plain := plain }) = .ok s' ∧
      Sending p sessionKey messageType (seen ++ [chunk]) s' := by
  have hlen : (rest ++ [chunk]).length = rest.length + 1 := List.length_append
  have hfull := hholds.written.full_iff (n := p.sendChunkBatchSize) (by simp)
    (by rw [hlen]; exact hfilling.lt)
  rw [hlen] at hfull
  by_cases hsend : plain.currentItemNum.toNat % p.sendChunkBatchSize = 0
  · rw [if_pos hsend]
    obtain ⟨enc, henc', hrun⟩ := sendBatch_holds (p := p) sessionKey
      (s := { s with plain := plain }) messageType hholds henc
    refine ⟨_, hrun, groups ++ [rest ++ [chunk]], [], hfilling.close (hfull.mp hsend),
      holds_reset hholds.length, henc', ?_, ?_, by simp⟩
    · rw [List.map_append, ← hsent]
      rfl
    · exact List.forall_mem_append.mpr ⟨hgroups, List.forall_mem_singleton.mpr hholds.fits⟩
  · rw [if_neg hsend]
    have hlt : rest.length + 1 < p.sendChunkBatchSize :=
      Nat.lt_of_le_of_ne hfilling.lt fun heq => hsend (hfull.mpr heq)
    exact ⟨_, rfl, groups, rest ++ [chunk], hfilling.grow hlt, hholds, henc, hsent, hgroups,
      hsizes⟩

/-- `ProcessChunk`. -/
theorem processChunk_sending {seen post : List Bytes} (inputChunk : Chunk)
    (h : Sending p sessionKey .clientUploadChunk seen s)
    (hfit : BatchesFit p.sendChunkBatchSize (seen ++ inputChunk.val :: post)) :
    ∃ s', processChunk p sessionKey s inputChunk = .ok s' ∧
      Sending p sessionKey .clientUploadChunk (seen ++ [inputChunk.val]) s' := by
  obtain ⟨groups, rest, hfilling, hholds, henc, hsent, hgroups, hsizes⟩ := h
  have hsizes' := sizes_concat hsizes inputChunk.property
  obtain ⟨plain, hplain, hholds'⟩ := hholds.append (hfilling.fits hfit)
    (frames_room hfilling.lt hsizes')
  obtain ⟨s', hrun, hsending⟩ :=
    Sending.next sessionKey hfilling hholds' henc hsent hgroups hsizes'
  refine ⟨s', ?_, hsending⟩
  simp only [processChunk, hplain, inRange, bind, Except.bind, sendChunks]
  exact hrun

/-- A chunk recovered into a buffer that holds records. -/
theorem recoverIntoBuffer_holds {b : FrameBuffer} {chunkBuffer : Bytes} {chunkSize : Nat}
    (h : Holds (sendBufferSize p) rest b) (hlt : rest.length < p.sendChunkBatchSize)
    (hsizes : ∀ q ∈ rest, q.length ≤ maxChunkSize) (hsize : chunkSize ≤ maxChunkSize)
    (hfits : (frames (rest ++ [recoveredChunk p chunkBuffer chunkSize])).length < 2 ^ 32) :
    ∃ b', recoverIntoBuffer p chunkBuffer chunkSize b = .ok b' ∧
      Holds (sendBufferSize p) (rest ++ [recoveredChunk p chunkBuffer chunkSize]) b' := by
  have hchunk := length_recoveredChunk_le (p := p) chunkBuffer hsize
  have hroom := frames_room hlt (sizes_concat hsizes hchunk)
  have hframes := length_frames_le hsizes
  have hmul : (rest.length + 1) * sizeofChunk ≤ sendBufferSize p := Nat.mul_le_mul_right _ hlt
  have hspace : b.dataSize.toNat + sizeofChunk ≤ b.dataBuffer.length := by
    rw [Nat.succ_mul] at hmul
    rw [h.toNat_dataSize, h.length]
    unfold sizeofChunk at hmul ⊢
    omega
  exact ⟨_, recoverIntoBuffer_eq chunkBuffer hsize hspace, h.extend hfits hroom⟩

/-- The buffer behind a header holds what the decoder's buffer is. -/
def Represents (p : Params) (buf : RestoreBuf) (b : FrameBuffer) : Prop :=
  ∃ chunks, buf = ⟨chunks.length, frames chunks⟩ ∧ Holds (sendBufferSize p) chunks b ∧
    ∀ chunk ∈ chunks, chunk.length ≤ maxChunkSize

/-- **Refinement.**  Fewer than a batch of chunks wait and the bytes can be counted: then the
buffer follows `RecoverOneChunk` as the decoder has it. -/
theorem recoverIntoBuffer_refines {buf : RestoreBuf} {b : FrameBuffer} {chunkBuffer : Bytes}
    {chunkSize : Nat} (h : Represents p buf b) (hlt : buf.currentItemNum < p.sendChunkBatchSize)
    (hsize : chunkSize ≤ maxChunkSize)
    (hfits : (recoverOneChunk p chunkBuffer chunkSize buf).dataBuffer.length < 2 ^ 32) :
    ∃ b', recoverIntoBuffer p chunkBuffer chunkSize b = .ok b' ∧
      Represents p (recoverOneChunk p chunkBuffer chunkSize buf) b' := by
  obtain ⟨chunks, rfl, hholds, hsizes⟩ := h
  have hstep : recoverOneChunk p chunkBuffer chunkSize ⟨chunks.length, frames chunks⟩ =
      ⟨(chunks ++ [recoveredChunk p chunkBuffer chunkSize]).length,
        frames (chunks ++ [recoveredChunk p chunkBuffer chunkSize])⟩ := by
    rw [frames_concat, List.length_append]
    rfl
  rw [hstep] at hfits ⊢
  obtain ⟨b', hrun, hholds'⟩ := recoverIntoBuffer_holds hholds hlt hsizes hsize hfits
  have hchunk := length_recoveredChunk_le (p := p) chunkBuffer hsize
  exact ⟨b', hrun, _, rfl, hholds', sizes_concat hsizes hchunk⟩

/-- The loop body over the collected entries. -/
theorem restoreChunk_sending {seen post : List Bytes} {stored : Bytes × Nat}
    (hsize : stored.2 ≤ maxChunkSize) (h : Sending p sessionKey .serverRestoreChunk seen s)
    (hfit : BatchesFit p.sendChunkBatchSize
      (seen ++ recoveredChunk p stored.1 stored.2 :: post)) :
    ∃ s', restoreChunk p sessionKey false s stored = .ok s' ∧
      Sending p sessionKey .serverRestoreChunk
        (seen ++ [recoveredChunk p stored.1 stored.2]) s' := by
  obtain ⟨groups, rest, hfilling, hholds, henc, hsent, hgroups, hsizes⟩ := h
  have hchunk := length_recoveredChunk_le (p := p) stored.1 hsize
  obtain ⟨plain, hplain, hholds'⟩ := recoverIntoBuffer_holds hholds hfilling.lt hsizes hsize
    (hfilling.fits hfit)
  obtain ⟨s', hrun, hsending⟩ := Sending.next sessionKey hfilling hholds' henc
    hsent hgroups (sizes_concat hsizes hchunk)
  refine ⟨s', ?_, hsending⟩
  simp only [restoreChunk, hplain, bind, Except.bind, Bool.false_eq_true, or_false, if_false]
  exact hrun

/-! ## The upload -/

/-- What `FastCDC` pushes for a file of these chunks. -/
def uploadItems (chunks : List Chunk) (recipeHead : FileRecipeHead) : List MQData :=
  chunks.map .chunk ++ [.recipeEnd recipeHead]

/-- The last message. -/
def recipeEndMsg (recipeHead : FileRecipeHead) : FramedMsg where
  messageType := .clientUploadRecipeEnd
  currentItemNum := 0
  dataSize := UInt32.ofNat fileRecipeHeadSize
  data := recipeHead.toBytes

/-- Chunks are processed one by one. -/
theorem dataSenderRun_chunks (heap : Nat → UInt8) (chunks : List Chunk) :
    dataSenderRun p sessionKey heap (chunks.map .chunk) =
      chunks.foldlM (processChunk p sessionKey) (.init p heap) := by
  unfold dataSenderRun
  rw [List.foldlM_map]
  rfl

/-- **Any chunks**, never out of a buffer. -/
theorem processChunks_waiting (p : Params) (sessionKey : Bytes) (heap : Nat → UInt8)
    (chunks : List Chunk) :
    ∃ s, chunks.foldlM (processChunk p sessionKey) (.init p heap) = .ok s ∧
      (∃ rest, Waiting p rest s) ∧ ∀ m ∈ s.sent, m.messageType = .clientUploadChunk :=
  Loops.foldlM_ok
    (P := fun _ s => (∃ rest, Waiting p rest s) ∧ ∀ m ∈ s.sent, m.messageType = .clientUploadChunk)
    ⟨⟨[], waiting_init p heap⟩, by simp [FrameSender.init]⟩ (by
      rintro pre chunk _ s - ⟨⟨rest, hrest⟩, htypes⟩
      obtain ⟨s', hrun, hwaiting, msgs, hsent, hmsgs⟩ :=
        processChunk_waiting sessionKey hrest chunk
      refine ⟨s', hrun, hwaiting, fun m hm => ?_⟩
      rw [hsent] at hm
      rcases List.mem_append.mp hm with hm | hm
      · exact htypes m hm
      · exact hmsgs m hm)

/-- **Chunks whose batches can be counted.** -/
theorem processChunks_sending (heap : Nat → UInt8) {chunks : List Chunk}
    (hfit : BatchesFit p.sendChunkBatchSize (chunks.map (·.val))) :
    ∃ s, chunks.foldlM (processChunk p sessionKey) (.init p heap) = .ok s ∧
      Sending p sessionKey .clientUploadChunk (chunks.map (·.val)) s :=
  Loops.foldlM_ok
    (P := fun (pre : List Chunk) s =>
      Sending p sessionKey .clientUploadChunk (pre.map (·.val)) s)
    (sending_init p sessionKey .clientUploadChunk heap) (by
      intro pre chunk rest s hsplit hs
      have hfit' : BatchesFit p.sendChunkBatchSize
          (pre.map (·.val) ++ chunk.val :: rest.map (·.val)) := by
        rwa [hsplit, List.map_append, List.map_cons] at hfit
      obtain ⟨s', hrun, hsending⟩ := processChunk_sending sessionKey chunk hs hfit'
      exact ⟨s', hrun, by simpa using hsending⟩)

/-- The recipe end, from a buffer in which nothing waits. -/
theorem sendRecipeEnd_of_empty (recipeHead : FileRecipeHead)
    (hnum : s.plain.currentItemNum = 0) (hlen : s.plain.dataBuffer.length = sendBufferSize p) :
    ∃ s', sendRecipeEnd p sessionKey s recipeHead = .ok s' ∧
      s'.plain.dataBuffer.length = sendBufferSize p ∧
      s'.plain.dataSize = UInt32.ofNat fileRecipeHeadSize ∧
      s'.sent = s.sent ++ [recipeEndMsg recipeHead] := by
  have hbytes : recipeHead.toBytes.length = fileRecipeHeadSize := recipeHead.length_toBytes
  have hroom : 0 + recipeHead.toBytes.length ≤ s.plain.dataBuffer.length := by
    have hpos := Nat.mul_le_mul_right sizeofChunk p.sendChunkBatchSize_pos
    rw [hbytes, hlen, Nat.zero_add]
    exact Nat.le_trans (by decide) hpos
  have hpayload : (Buffer.overwrite s.plain.dataBuffer 0 recipeHead.toBytes).take
      (UInt32.ofNat fileRecipeHeadSize).toNat = recipeHead.toBytes := by
    have hsize : (UInt32.ofNat fileRecipeHeadSize).toNat = recipeHead.toBytes.length := by
      rw [hbytes]
      rfl
    rw [hsize, Buffer.overwrite, List.take_zero, List.nil_append, List.take_left]
  refine ⟨{ s with
    plain := { s.plain with
      dataSize := UInt32.ofNat fileRecipeHeadSize
      dataBuffer := Buffer.overwrite s.plain.dataBuffer 0 recipeHead.toBytes }
    sent := s.sent ++ [recipeEndMsg recipeHead] }, ?_, ?_, rfl, rfl⟩
  · simp only [sendRecipeEnd, hnum, ne_eq, not_true_eq_false, if_false, bind, Except.bind,
      Buffer.write, if_pos hroom, inRange, pure, Except.pure, FrameBuffer.payload,
      hpayload, recipeEndMsg]
  · dsimp only
    rw [Buffer.length_overwrite hroom, hlen]

/-- The recipe end behind chunks that wait is the recipe end after they were sent. -/
theorem sendRecipeEnd_of_sent {s₁ : FrameSender} {recipeHead : FileRecipeHead}
    (hnum : s.plain.currentItemNum ≠ 0) (hsent : sendChunks p sessionKey s = .ok s₁)
    (hnum₁ : s₁.plain.currentItemNum = 0) :
    sendRecipeEnd p sessionKey s recipeHead = sendRecipeEnd p sessionKey s₁ recipeHead := by
  unfold sendRecipeEnd
  rw [if_pos hnum, if_neg (not_not.mpr hnum₁), hsent]

/-- The recipe end, whatever was sent. -/
theorem sendRecipeEnd_waiting (h : Waiting p rest s) (recipeHead : FileRecipeHead) :
    ∃ s', sendRecipeEnd p sessionKey s recipeHead = .ok s' ∧
      s'.plain.dataBuffer.length = sendBufferSize p ∧
      s'.plain.dataSize = UInt32.ofNat fileRecipeHeadSize ∧
      ∃ msgs, s'.sent = s.sent ++ msgs ++ [recipeEndMsg recipeHead] ∧
        ∀ m ∈ msgs, m.messageType = .clientUploadChunk := by
  by_cases hnum : s.plain.currentItemNum = 0
  · obtain ⟨s', hrun, hlen, hsize, hsent⟩ :=
      sendRecipeEnd_of_empty sessionKey recipeHead hnum
        h.counts.length
    exact ⟨s', hrun, hlen, hsize, [], by rw [hsent, List.append_nil], by simp⟩
  · have hle : s.plain.dataSize.toNat ≤ s.plain.dataBuffer.length := by
      have hroom := h.room
      rw [h.counts.length]
      omega
    have hrun₁ : sendChunks p sessionKey s = .ok _ :=
      sendBatch_eq sessionKey .clientUploadChunk hle (h.enc.trans h.counts.length.symm)
    rw [sendRecipeEnd_of_sent sessionKey hnum hrun₁ rfl]
    obtain ⟨s', hrun, hlen, hsize, hsent⟩ :=
      sendRecipeEnd_of_empty (p := p) sessionKey recipeHead
        (s := { s with plain := s.plain.reset, enc := _, sent := _ }) rfl h.counts.length
    exact ⟨s', hrun, hlen, hsize, _, hsent, by simp⟩

/-- The recipe end, when batches can be counted. -/
theorem sendRecipeEnd_sending {seen : List Bytes}
    (h : Sending p sessionKey .clientUploadChunk seen s) (recipeHead : FileRecipeHead) :
    ∃ s' : FrameSender, ∃ groups : List (List Bytes),
      sendRecipeEnd p sessionKey s recipeHead = .ok s' ∧
      s'.sent = groups.map (batchMsg p sessionKey .clientUploadChunk) ++
        [recipeEndMsg recipeHead] ∧
      groups.flatten = seen ∧ ∀ g ∈ groups, (frames g).length < 2 ^ 32 := by
  obtain ⟨groups, rest, hfilling, hholds, henc, hsent, hgroups, -⟩ := h
  have hcount := hholds.toNat_currentItemNum
  by_cases hrest : rest = []
  · have hnum : s.plain.currentItemNum = 0 := by
      rw [← UInt32.toNat_inj, hcount, hrest]
      rfl
    obtain ⟨s', hrun, -, -, hsent'⟩ :=
      sendRecipeEnd_of_empty sessionKey recipeHead hnum
        hholds.length
    refine ⟨s', groups, hrun, by rw [hsent', hsent], ?_, hgroups⟩
    rw [← hfilling.eq, hrest, List.append_nil]
  · have hnum : s.plain.currentItemNum ≠ 0 := by
      intro hzero
      rw [hzero] at hcount
      exact hrest (List.length_eq_zero_iff.mp hcount.symm)
    obtain ⟨enc, -, hrun₁⟩ := sendBatch_holds (p := p) sessionKey
      .clientUploadChunk hholds henc
    rw [sendRecipeEnd_of_sent sessionKey hnum hrun₁ rfl]
    obtain ⟨s', hrun, -, -, hsent'⟩ :=
      sendRecipeEnd_of_empty (p := p) sessionKey recipeHead
        (s := { s with plain := s.plain.reset, enc := enc, sent := _ }) rfl hholds.length
    refine ⟨s', groups ++ [rest], hrun, by simp [hsent', hsent], ?_, ?_⟩
    · rw [← hfilling.eq, List.flatten_append, List.flatten_singleton]
    · exact List.forall_mem_append.mpr ⟨hgroups, List.forall_mem_singleton.mpr hholds.fits⟩

/-- The batches of chunks of the largest size can be counted if a full buffer can. -/
theorem batchesFit_of_size (hsize : sendBufferSize p < 2 ^ 32) {chunks : List Bytes}
    (hchunks : ∀ chunk ∈ chunks, chunk.length ≤ maxChunkSize) :
    BatchesFit p.sendChunkBatchSize chunks :=
  fun k => Nat.lt_of_le_of_lt (length_frames_batch_le hchunks k) hsize

/-- The messages carry the chunks: received one after the other, they give them in order. -/
def CarryChunks (receives : FramedMsg → List Bytes → Prop) (msgs : List FramedMsg)
    (chunks : List Bytes) : Prop :=
  ∃ groups, groups.flatten = chunks ∧ List.Forall₂ receives msgs groups

/-- The index finds the chunks in the message, whatever stands behind them in its buffer. -/
def IndexReceives (p : Params) (sessionKey : Bytes) (m : FramedMsg) (chunks : List Bytes) : Prop :=
  ∀ stale, framedChunks p sessionKey stale m = chunks

/-- The client pushes the chunks of the message, whatever stands behind them in its buffer. -/
def ClientReceives (p : Params) (sessionKey : Bytes) (m : FramedMsg) (chunks : List Bytes) :
    Prop :=
  ∀ stale, ∃ pushed : List Chunk, retrieveChunks p sessionKey stale m = .ok pushed ∧
    pushed.map (·.val) = chunks

theorem indexReceives_batchMsg (messageType : MessageType) {chunks : List Bytes}
    (h : (frames chunks).length < 2 ^ 32) :
    IndexReceives p sessionKey (batchMsg p sessionKey messageType chunks) chunks :=
  fun stale => framedChunks_batchMsg sessionKey messageType h stale

/-- Chunks that fit into a `Chunk_t` are pushed. -/
theorem IndexReceives.client {m : FramedMsg} {chunks : List Bytes}
    (h : IndexReceives p sessionKey m chunks)
    (hsizes : ∀ chunk ∈ chunks, chunk.length ≤ maxChunkSize) :
    ClientReceives p sessionKey m chunks := by
  intro stale
  unfold retrieveChunks
  rw [h stale]
  clear h
  induction chunks with
  | nil => exact ⟨[], rfl, rfl⟩
  | cons chunk rest ih =>
      rw [List.forall_mem_cons] at hsizes
      obtain ⟨pushed, hrun, hpushed⟩ := ih hsizes.2
      refine ⟨⟨chunk, hsizes.1⟩ :: pushed, ?_, by rw [List.map_cons, hpushed]⟩
      rw [List.mapM_cons, dif_pos hsizes.1, hrun]
      rfl

/-- A sender whose buffers have kept their size, and in which no more waits than has room. -/
structure Bounded (p : Params) (s : FrameSender) : Prop where
  plain : s.plain.dataBuffer.length = sendBufferSize p
  dataSize : s.plain.dataSize.toNat ≤ sendBufferSize p

/-- What an upload of `chunks` owes. -/
structure UploadFramed (p : Params) (sessionKey : Bytes) (heap : Nat → UInt8)
    (chunks : List Chunk) (recipeHead : FileRecipeHead) : Prop where
  /-- At no moment a copy leaves a buffer. -/
  room : ∀ items, items <+: uploadItems chunks recipeHead →
    ∃ s, dataSenderRun p sessionKey heap items = .ok s ∧ Bounded p s
  /-- There is one recipe end, behind all chunks. -/
  sent : ∃ s msgs, dataSenderRun p sessionKey heap (uploadItems chunks recipeHead) = .ok s ∧
    s.sent = msgs ++ [recipeEndMsg recipeHead] ∧
    (∀ m ∈ msgs, m.messageType = .clientUploadChunk) ∧
    (BatchesFit p.sendChunkBatchSize (chunks.map (·.val)) →
      CarryChunks (IndexReceives p sessionKey) msgs (chunks.map (·.val)))
  /-- A buffer whose size the header can count is enough. -/
  fit : sendBufferSize p < 2 ^ 32 → BatchesFit p.sendChunkBatchSize (chunks.map (·.val))

theorem Waiting.bounded (h : Waiting p rest s) : Bounded p s where
  plain := h.counts.length
  dataSize := Nat.le_trans (Nat.le_add_right _ _) h.room

theorem dataSenderRun_items (heap : Nat → UInt8) (chunks : List Chunk)
    (recipeHead : FileRecipeHead) {s : FrameSender}
    (hrun : chunks.foldlM (processChunk p sessionKey) (.init p heap) = .ok s) :
    dataSenderRun p sessionKey heap (uploadItems chunks recipeHead) =
      sendRecipeEnd p sessionKey s recipeHead := by
  have hchunks := dataSenderRun_chunks (p := p) sessionKey heap chunks
  rw [hrun] at hchunks
  unfold dataSenderRun uploadItems at *
  rw [List.foldlM_append, hchunks]
  exact bind_pure (dataSenderStep p sessionKey s (.recipeEnd recipeHead))

theorem upload_framed (p : Params) (sessionKey : Bytes) (heap : Nat → UInt8)
    (chunks : List Chunk) (recipeHead : FileRecipeHead) :
    UploadFramed p sessionKey heap chunks recipeHead where
  room := by
    intro items hitems
    rcases List.prefix_concat_iff.mp hitems with rfl | hitems
    · obtain ⟨s, hrun, ⟨rest, hrest⟩, -⟩ := processChunks_waiting p sessionKey heap chunks
      obtain ⟨s', hend, hlen, hsize, -⟩ :=
        sendRecipeEnd_waiting sessionKey hrest recipeHead
      refine ⟨s', ?_, hlen, ?_⟩
      · exact (dataSenderRun_items sessionKey heap chunks recipeHead hrun).trans hend
      · have hpos := Nat.mul_le_mul_right sizeofChunk p.sendChunkBatchSize_pos
        rw [hsize]
        exact Nat.le_trans (by decide) hpos
    · have hmap : items = (chunks.take items.length).map .chunk := by
        rw [List.map_take]
        exact List.prefix_iff_eq_take.mp hitems
      obtain ⟨s, hrun, ⟨rest, hrest⟩, -⟩ :=
        processChunks_waiting p sessionKey heap (chunks.take items.length)
      refine ⟨s, ?_, hrest.bounded⟩
      rw [hmap, dataSenderRun_chunks]
      exact hrun
  sent := by
    obtain ⟨s, hrun, ⟨rest, hrest⟩, htypes⟩ := processChunks_waiting p sessionKey heap chunks
    obtain ⟨s', hend, -, -, msgs, hsent, hmsgs⟩ :=
      sendRecipeEnd_waiting sessionKey hrest recipeHead
    have hall := (dataSenderRun_items sessionKey heap chunks recipeHead hrun).trans hend
    refine ⟨s', s.sent ++ msgs, hall, hsent, ?_, ?_⟩
    · intro m hm
      rcases List.mem_append.mp hm with hm | hm
      · exact htypes m hm
      · exact hmsgs m hm
    · intro hfit
      obtain ⟨s₁, hrun₁, hsending⟩ := processChunks_sending sessionKey heap hfit
      obtain ⟨s₁', groups, hend₁, hsent₁, hflat, hgroups⟩ :=
        sendRecipeEnd_sending sessionKey hsending recipeHead
      cases hrun.symm.trans hrun₁
      cases hend.symm.trans hend₁
      rw [List.append_cancel_right (hsent.symm.trans hsent₁), ← hflat]
      refine ⟨groups, rfl, ?_⟩
      rw [List.forall₂_map_left_iff, List.forall₂_same]
      exact fun g hg => indexReceives_batchMsg sessionKey _ (hgroups g hg)
  fit := fun hsize => batchesFit_of_size hsize (by
    intro chunk hchunk
    obtain ⟨c, -, rfl⟩ := List.mem_map.mp hchunk
    exact c.property)

/-! ## The restore -/

/-- Every stored chunk has a size that `RecoverOneChunk` has room for. -/
def StoredFit (stored : List (Bytes × Nat)) : Prop := ∀ e ∈ stored, e.2 ≤ maxChunkSize

/-- The chunks that are recovered. -/
def recoveredChunks (p : Params) (stored : List (Bytes × Nat)) : List Bytes :=
  stored.map fun e => recoveredChunk p e.1 e.2

/-- **Any stored chunks**, never out of a buffer. -/
theorem restoreChunks_waiting (p : Params) (sessionKey : Bytes) (heap : Nat → UInt8)
    {stored : List (Bytes × Nat)} (hstored : StoredFit stored) :
    ∃ s, stored.foldlM (restoreChunk p sessionKey false) (.init p heap) = .ok s ∧
      (∃ rest, Waiting p rest s) ∧ ∀ m ∈ s.sent, m.messageType = .serverRestoreChunk :=
  Loops.foldlM_ok
    (P := fun _ s => (∃ rest, Waiting p rest s) ∧
      ∀ m ∈ s.sent, m.messageType = .serverRestoreChunk)
    ⟨⟨[], waiting_init p heap⟩, by simp [FrameSender.init]⟩ (by
      rintro pre e _ s hsplit ⟨⟨rest, hrest⟩, htypes⟩
      obtain ⟨s', hrun, hwaiting, hsent⟩ := restoreChunk_waiting sessionKey hrest
        false (hstored e (by simp [hsplit]))
      refine ⟨s', hrun, hwaiting, ?_⟩
      rcases hsent with ⟨-, hsent⟩ | ⟨m, hsent, htype⟩
      · rw [hsent]
        exact htypes
      · rw [hsent]
        intro m' hm'
        rcases List.mem_append.mp hm' with hm' | hm'
        · exact htypes m' hm'
        · rw [List.mem_singleton.mp hm']
          exact htype)

/-- **Stored chunks whose batches can be counted.** -/
theorem restoreChunks_sending (heap : Nat → UInt8) {body tail : List (Bytes × Nat)}
    (hbody : StoredFit body)
    (hfit : BatchesFit p.sendChunkBatchSize (recoveredChunks p (body ++ tail))) :
    ∃ s, body.foldlM (restoreChunk p sessionKey false) (.init p heap) = .ok s ∧
      Sending p sessionKey .serverRestoreChunk (recoveredChunks p body) s :=
  Loops.foldlM_ok
    (P := fun pre s => Sending p sessionKey .serverRestoreChunk (recoveredChunks p pre) s)
    (sending_init p sessionKey .serverRestoreChunk heap) (by
      intro pre e rest s hsplit hs
      have hfit' : BatchesFit p.sendChunkBatchSize (recoveredChunks p pre ++
          recoveredChunk p e.1 e.2 :: recoveredChunks p (rest ++ tail)) := by
        rw [hsplit, List.append_assoc, recoveredChunks, List.map_append] at hfit
        exact hfit
      obtain ⟨s', hrun, hsending⟩ :=
        restoreChunk_sending sessionKey (hbody e (by simp [hsplit])) hs hfit'
      refine ⟨s', hrun, ?_⟩
      rw [recoveredChunks, List.map_append]
      exact hsending)

/-- The tail, whatever was sent. -/
theorem restoreTail_waiting {tail : List (Bytes × Nat)} (htail : StoredFit tail)
    (h : Waiting p rest s) :
    ∃ s', restoreTail p sessionKey tail s = .ok s' ∧ Bounded p s' ∧
      ∃ msgs last, s'.sent = s.sent ++ msgs ++ [last] ∧
        (∀ m ∈ msgs, m.messageType = .serverRestoreChunk) ∧
        last.messageType = .serverRestoreFinal := by
  induction tail generalizing rest s with
  | nil =>
      have hle : s.plain.dataSize.toNat ≤ s.plain.dataBuffer.length := by
        have hroom := h.room
        rw [h.counts.length]
        omega
      refine ⟨_, sendBatch_eq sessionKey .serverRestoreFinal hle (h.enc.trans h.counts.length.symm),
        ⟨h.counts.length, Nat.zero_le _⟩, [], _, by rw [List.append_nil], by simp, rfl⟩
  | cons e tail ih =>
      have he := htail e List.mem_cons_self
      have hrest : StoredFit tail := fun x hx => htail x (List.mem_cons_of_mem _ hx)
      cases tail with
      | nil =>
          obtain ⟨s', hrun, ⟨rest', hrest'⟩, hsent⟩ :=
            restoreChunk_waiting sessionKey h true he
          rcases hsent with ⟨hfalse, -⟩ | ⟨m, hsent, htype⟩
          · cases hfalse
          · exact ⟨s', hrun, hrest'.bounded, [], m, by rw [hsent, List.append_nil], by simp,
              htype⟩
      | cons e' tail =>
          obtain ⟨s₁, hrun₁, ⟨rest₁, hrest₁⟩, hsent₁⟩ :=
            restoreChunk_waiting sessionKey h false he
          obtain ⟨s', hrun, hbounded, msgs, last, hsent, hmsgs, hlast⟩ := ih hrest hrest₁
          have hrun' : restoreTail p sessionKey (e :: e' :: tail) s = .ok s' := by
            simp only [restoreTail, hrun₁, bind, Except.bind]
            exact hrun
          rcases hsent₁ with ⟨-, hsent₁⟩ | ⟨m, hsent₁, htype⟩
          · exact ⟨s', hrun', hbounded, msgs, last, by rw [hsent, hsent₁], hmsgs, hlast⟩
          · refine ⟨s', hrun', hbounded, m :: msgs, last, by simp [hsent, hsent₁], ?_, hlast⟩
            rw [List.forall_mem_cons]
            exact ⟨htype, hmsgs⟩

/-- The final message behind the batches that were sent. -/
theorem finalBatch_sent {groups : List (List Bytes)} {last : List Bytes} {plain : FrameBuffer}
    (hholds : Holds (sendBufferSize p) last plain) (henc : s.enc.length = sendBufferSize p)
    (hsent : s.sent = groups.map (batchMsg p sessionKey .serverRestoreChunk))
    (hgroups : ∀ g ∈ groups, (frames g).length < 2 ^ 32) :
    ∃ s', FrameSender.sendBatch p sessionKey .serverRestoreFinal { s with plain := plain } =
        .ok s' ∧
      s'.sent = groups.map (batchMsg p sessionKey .serverRestoreChunk) ++
        [batchMsg p sessionKey .serverRestoreFinal last] ∧
      ∀ g ∈ groups ++ [last], (frames g).length < 2 ^ 32 := by
  obtain ⟨enc, -, hrun⟩ := sendBatch_holds (p := p) sessionKey (s := { s with plain := plain })
    .serverRestoreFinal hholds henc
  exact ⟨_, hrun, congrArg (· ++ _) hsent,
    List.forall_mem_append.mpr ⟨hgroups, List.forall_mem_singleton.mpr hholds.fits⟩⟩

/-- The tail, when batches can be counted. -/
theorem restoreTail_sending {tail : List (Bytes × Nat)} {seen : List Bytes}
    (htail : StoredFit tail) (h : Sending p sessionKey .serverRestoreChunk seen s)
    (hfit : BatchesFit p.sendChunkBatchSize (seen ++ recoveredChunks p tail)) :
    ∃ s' : FrameSender, ∃ groups : List (List Bytes), ∃ last,
      restoreTail p sessionKey tail s = .ok s' ∧
      s'.sent = groups.map (batchMsg p sessionKey .serverRestoreChunk) ++
        [batchMsg p sessionKey .serverRestoreFinal last] ∧
      (groups ++ [last]).flatten = seen ++ recoveredChunks p tail ∧
      ∀ g ∈ groups ++ [last], (frames g).length < 2 ^ 32 := by
  induction tail generalizing seen s with
  | nil =>
      obtain ⟨groups, rest, hfilling, hholds, henc, hsent, hgroups, -⟩ := h
      obtain ⟨s', hrun, hsent', hfits⟩ := finalBatch_sent sessionKey hholds henc hsent hgroups
      refine ⟨s', groups, rest, hrun, hsent', ?_, hfits⟩
      rw [List.flatten_append, List.flatten_singleton, hfilling.eq]
      exact (List.append_nil seen).symm
  | cons e tail ih =>
      have he := htail e List.mem_cons_self
      have hrest : StoredFit tail := fun x hx => htail x (List.mem_cons_of_mem _ hx)
      cases tail with
      | nil =>
          obtain ⟨groups, rest, hfilling, hholds, henc, hsent, hgroups, hsizes⟩ := h
          obtain ⟨plain, hplain, hholds'⟩ := recoverIntoBuffer_holds hholds hfilling.lt hsizes he
            (hfilling.fits hfit)
          obtain ⟨s', hrun, hsent', hfits⟩ := finalBatch_sent sessionKey hholds' henc hsent hgroups
          have hrun' : restoreTail p sessionKey [e] s = .ok s' := by
            simp only [restoreTail, restoreChunk, hplain, bind, Except.bind, or_true, if_true]
            exact hrun
          refine ⟨s', groups, _, hrun', hsent', ?_, hfits⟩
          rw [List.flatten_append, List.flatten_singleton, ← List.append_assoc, hfilling.eq]
          rfl
      | cons e' tail =>
          obtain ⟨s₁, hrun₁, hsending⟩ := restoreChunk_sending sessionKey he h hfit
          have hsplit : seen ++ recoveredChunks p (e :: e' :: tail) =
              seen ++ [recoveredChunk p e.1 e.2] ++ recoveredChunks p (e' :: tail) := by
            rw [List.append_assoc]
            rfl
          rw [hsplit] at hfit ⊢
          obtain ⟨s', groups, last, hrun, hsent⟩ := ih hrest hsending hfit
          refine ⟨s', groups, last, ?_, hsent⟩
          simp only [restoreTail, hrun₁, bind, Except.bind]
          exact hrun

theorem recoveredChunks_sizes {body tail : List (Bytes × Nat)} (hbody : StoredFit body)
    (htail : StoredFit tail) :
    ∀ chunk ∈ recoveredChunks p (body ++ tail), chunk.length ≤ maxChunkSize := by
  intro chunk hchunk
  obtain ⟨e, he, rfl⟩ := List.mem_map.mp hchunk
  rcases List.mem_append.mp he with he | he
  · exact length_recoveredChunk_le _ (hbody e he)
  · exact length_recoveredChunk_le _ (htail e he)

/-- What a restore of the stored chunks owes. -/
structure RestoreFramed (p : Params) (sessionKey : Bytes) (heap : Nat → UInt8)
    (body tail : List (Bytes × Nat)) : Prop where
  /-- At no moment a copy leaves a buffer. -/
  room : ∀ stored, stored <+: body ++ tail →
    ∃ s, stored.foldlM (restoreChunk p sessionKey false) (.init p heap) = .ok s ∧ Bounded p s
  /-- There is one final message, behind all others. -/
  sent : ∃ s msgs last, restoreSend p sessionKey heap body tail = .ok s ∧ Bounded p s ∧
    s.sent = msgs ++ [last] ∧ (∀ m ∈ msgs, m.messageType = .serverRestoreChunk) ∧
    last.messageType = .serverRestoreFinal ∧
    (BatchesFit p.sendChunkBatchSize (recoveredChunks p (body ++ tail)) →
      CarryChunks (ClientReceives p sessionKey) s.sent (recoveredChunks p (body ++ tail)))
  /-- A buffer whose size the header can count is enough. -/
  fit : sendBufferSize p < 2 ^ 32 →
    BatchesFit p.sendChunkBatchSize (recoveredChunks p (body ++ tail))

theorem restore_framed (p : Params) (sessionKey : Bytes) (heap : Nat → UInt8)
    {body tail : List (Bytes × Nat)} (hbody : StoredFit body) (htail : StoredFit tail) :
    RestoreFramed p sessionKey heap body tail where
  room := by
    intro stored hbegins
    have hstored : StoredFit stored := fun e he => by
      rcases List.mem_append.mp (hbegins.subset he) with he | he
      · exact hbody e he
      · exact htail e he
    obtain ⟨s, hrun, ⟨rest, hrest⟩, -⟩ := restoreChunks_waiting p sessionKey heap hstored
    exact ⟨s, hrun, hrest.bounded⟩
  sent := by
    obtain ⟨s, hrun, ⟨rest, hrest⟩, htypes⟩ := restoreChunks_waiting p sessionKey heap hbody
    obtain ⟨s', hend, hbounded, msgs, last, hsent, hmsgs, hlast⟩ :=
      restoreTail_waiting sessionKey htail hrest
    have hall : restoreSend p sessionKey heap body tail = .ok s' := by
      simp only [restoreSend, hrun, bind, Except.bind]
      exact hend
    refine ⟨s', s.sent ++ msgs, last, hall, hbounded, hsent, ?_, hlast, ?_⟩
    · intro m hm
      rcases List.mem_append.mp hm with hm | hm
      · exact htypes m hm
      · exact hmsgs m hm
    · intro hfit
      obtain ⟨s₁, hrun₁, hsending⟩ :=
        restoreChunks_sending sessionKey heap hbody hfit
      have hsplit : recoveredChunks p (body ++ tail) =
          recoveredChunks p body ++ recoveredChunks p tail := List.map_append
      rw [hsplit] at hfit
      obtain ⟨s₁', groups, last₁, hend₁, hsent₁, hflat, hgroups⟩ :=
        restoreTail_sending sessionKey htail hsending hfit
      cases hrun.symm.trans hrun₁
      cases hend.symm.trans hend₁
      have hreceives : ∀ messageType, ∀ g ∈ groups ++ [last₁],
          ClientReceives p sessionKey (batchMsg p sessionKey messageType g) g := by
        intro messageType g hg
        have hindex := indexReceives_batchMsg (p := p) sessionKey messageType (hgroups g hg)
        refine hindex.client sessionKey fun chunk hchunk => ?_
        refine recoveredChunks_sizes (p := p) hbody htail chunk ?_
        rw [hsplit, ← hflat]
        exact List.mem_flatten.mpr ⟨g, hg, hchunk⟩
      refine ⟨groups ++ [last₁], hflat.trans hsplit.symm, ?_⟩
      rw [hsent₁]
      refine List.rel_append ?_ (.cons (hreceives _ _ (by simp)) .nil)
      rw [List.forall₂_map_left_iff, List.forall₂_same]
      exact fun g hg => hreceives _ g (List.mem_append_left _ hg)
  fit := fun hsize => batchesFit_of_size hsize (recoveredChunks_sizes hbody htail)

/-- **Framing.**  On both ways no copy leaves a buffer, whatever the batch size.  An upload ends
in its one recipe end and a restore in its one final message, and as long as the header can
count the bytes of every batch, the receivers find the chunks, in order, none lost and none
twice. -/
theorem framing_round_trip (p : Params) (sessionKey : Bytes) (heap : Nat → UInt8) :
    (∀ chunks recipeHead, UploadFramed p sessionKey heap chunks recipeHead) ∧
    ∀ body tail, StoredFit body → StoredFit tail → RestoreFramed p sessionKey heap body tail :=
  ⟨upload_framed p sessionKey heap, fun _ _ hbody htail => restore_framed p sessionKey heap hbody
    htail⟩

theorem framing_round_trip_small :
    UploadFramed smallParams [3] (fun _ => 0) [⟨[7, 8], by decide⟩, ⟨[9], by decide⟩] ⟨3, 2⟩ ∧
    StoredFit [([5, 6], 1)] ∧ StoredFit [([4], 1)] ∧
    RestoreFramed smallParams [3] (fun _ => 0) [([5, 6], 1)] [([4], 1)] := by
  have hbody : StoredFit [([5, 6], 1)] := by simp [StoredFit, maxChunkSize]
  have htail : StoredFit [([4], 1)] := by simp [StoredFit, maxChunkSize]
  have hall := framing_round_trip smallParams [3] (fun _ => 0)
  exact ⟨hall.1 _ _, hbody, htail, hall.2 _ _ hbody htail⟩

/-! ## A batch that cannot be counted -/

theorem length_frames_replicate (n : Nat) (chunk : Bytes) :
    (frames (List.replicate n chunk)).length = n * (4 + chunk.length) := by
  induction n with
  | zero => simp
  | succ n ih =>
      rw [List.replicate_succ, frames_cons, List.length_append, length_frame, ih, Nat.succ_mul,
        Nat.add_comm]

theorem sessionKeyEnc_nil (p : Params) (sessionKey : Bytes) :
    p.crypto.sessionKeyEnc sessionKey [] = [] :=
  List.length_eq_zero_iff.mp (p.crypto.length_sessionKeyEnc _ _)

/-- A receiver that gets no bytes finds an empty chunk in a buffer of zeros. -/
theorem framedChunks_empty (messageType : MessageType) (currentItemNum : UInt32) {n : Nat}
    (hnum : currentItemNum.toNat = n + 1) :
    ∃ rest, framedChunks p sessionKey (fun _ => 0) ⟨messageType, currentItemNum, 0, []⟩ =
      [] :: rest := by
  have hdec := p.crypto.sessionKeyDec_sessionKeyEnc sessionKey []
  rw [sessionKeyEnc_nil] at hdec
  unfold framedChunks
  dsimp only
  rw [List.take_nil, hdec, hnum]
  exact ⟨_, rfl⟩

/-- A full batch of exactly `2 ^ 32` bytes leaves as a header without bytes. -/
theorem processChunk_full {n : Nat} {chunk : Chunk} (hbatch : p.sendChunkBatchSize = n + 1)
    (hbytes : (n + 1) * (4 + chunk.val.length) = 2 ^ 32) (hs : s.sent = [])
    (h : Waiting p (List.replicate n chunk.val) s) :
    ∃ s', processChunk p sessionKey s chunk = .ok s' ∧ s'.plain.currentItemNum = 0 ∧
      s'.plain.dataBuffer.length = sendBufferSize p ∧
      s'.sent = [⟨.clientUploadChunk, UInt32.ofNat (n + 1), 0, []⟩] := by
  obtain ⟨plain, hplain, hcounts⟩ := h.counts.append (sizes_concat h.sizes chunk.property)
    (Nat.mul_le_mul_right _ h.lt)
  rw [← List.replicate_succ'] at hcounts
  have hnum : plain.currentItemNum = UInt32.ofNat (n + 1) := by
    rw [hcounts.currentItemNum, List.length_replicate]
  have hsize : plain.dataSize = 0 := by
    rw [hcounts.dataSize, length_frames_replicate, hbytes]
    rfl
  have hsmall : n + 1 < 2 ^ 32 := by
    have hmul := Nat.mul_le_mul_left (n + 1) (Nat.le_add_right 4 chunk.val.length)
    omega
  have hfull : plain.currentItemNum.toNat % p.sendChunkBatchSize = 0 := by
    rw [hnum, UInt32.toNat_ofNat_of_lt' hsmall, hbatch, Nat.mod_self]
  have hpayload : plain.payload = [] := by
    rw [FrameBuffer.payload, hsize]
    exact List.take_zero
  have hrun := sendBatch_eq (p := p) sessionKey
    (s := { s with plain := plain }) .clientUploadChunk (by rw [hsize]; exact Nat.zero_le _)
    (h.enc.trans hcounts.length.symm)
  have hchunk : processChunk p sessionKey s chunk = .ok {
      plain := plain.reset
      enc := Buffer.overwrite s.enc 0 (p.crypto.sessionKeyEnc sessionKey plain.payload)
      sent := s.sent ++ [{
        messageType := .clientUploadChunk
        currentItemNum := plain.currentItemNum
        dataSize := plain.dataSize
        data := p.crypto.sessionKeyEnc sessionKey plain.payload }] } := by
    simp only [processChunk, hplain, inRange, bind, Except.bind, if_pos hfull, sendChunks]
    exact hrun
  refine ⟨_, hchunk, rfl, hcounts.length, ?_⟩
  dsimp only
  rw [hs, hpayload, hnum, hsize, sessionKeyEnc_nil, List.nil_append]

/-- Then the upload consists of that header and the recipe end. -/
theorem full_batch_sent {n : Nat} (chunk : Chunk) (hbatch : p.sendChunkBatchSize = n + 1)
    (hbytes : (n + 1) * (4 + chunk.val.length) = 2 ^ 32) (heap : Nat → UInt8)
    (recipeHead : FileRecipeHead) :
    ∃ s, dataSenderRun p sessionKey heap
        (uploadItems (List.replicate (n + 1) chunk) recipeHead) = .ok s ∧
      s.sent = [⟨.clientUploadChunk, UInt32.ofNat (n + 1), 0, []⟩, recipeEndMsg recipeHead] := by
  have hmap : (List.replicate n chunk).map (·.val) = List.replicate n chunk.val :=
    List.map_replicate
  have hfit : BatchesFit p.sendChunkBatchSize ((List.replicate n chunk).map (·.val)) := by
    intro k
    rw [hmap, List.drop_replicate, List.take_replicate, length_frames_replicate]
    have hmul := Nat.mul_le_mul_right (4 + chunk.val.length)
      (show min p.sendChunkBatchSize (n - k * p.sendChunkBatchSize) ≤ n by omega)
    rw [Nat.succ_mul] at hbytes
    omega
  obtain ⟨s₀, hrun₀, groups, rest, hfilling, hholds, henc, hsent, -, hsizes⟩ :=
    processChunks_sending (p := p) sessionKey heap hfit
  -- fewer chunks than a batch: none was sent
  have hgroups : groups = [] := by
    have hlen := congrArg List.length hfilling.eq
    rw [List.length_append, length_flatten_full hfilling.full, hmap, List.length_replicate,
      hbatch] at hlen
    rw [← List.length_eq_zero_iff]
    by_contra hne
    have hmul := Nat.mul_le_mul_right (n + 1) (Nat.pos_of_ne_zero hne)
    omega
  have hrest : rest = List.replicate n chunk.val := by
    rw [← hmap, ← hfilling.eq, hgroups]
    rfl
  have hlt := hfilling.lt
  rw [hrest] at hholds hsizes hlt
  have hlt32 : (List.replicate n chunk.val).length < 2 ^ 32 := by
    have hle := four_mul_length_le (List.replicate n chunk.val)
    have hfits := hholds.fits
    omega
  obtain ⟨s₁, hrun₁, hnum₁, hlen₁, hsent₁⟩ :=
    processChunk_full sessionKey hbatch hbytes
      (by rw [hsent, hgroups, List.map_nil]) ⟨hholds.toCounts, henc, hsizes, hlt, hlt32⟩
  obtain ⟨s₂, hrun₂, -, -, hsent₂⟩ :=
    sendRecipeEnd_of_empty sessionKey recipeHead hnum₁ hlen₁
  refine ⟨s₂, ?_, by rw [hsent₂, hsent₁]; rfl⟩
  rw [dataSenderRun_items sessionKey heap _ recipeHead (s := s₁), hrun₂]
  rw [List.replicate_succ', List.foldlM_append, hrun₀]
  exact (bind_pure (processChunk p sessionKey s₀ chunk)).trans hrun₁

/-- A batch of `2 ^ 18` chunks. -/
def largeBatch : Params :=
  { smallParams with sendChunkBatchSize := 2 ^ 18, sendChunkBatchSize_pos := Nat.two_pow_pos 18 }

theorem length_fullFrame : (List.replicate 16380 (0 : UInt8)).length ≤ maxChunkSize := by
  rw [List.length_replicate]
  decide

/-- A chunk whose frame has `2 ^ 14` bytes. -/
def fullFrame : Chunk := ⟨List.replicate 16380 0, length_fullFrame⟩

/-- **Lost.**  A batch of `2 ^ 18` such chunks has `2 ^ 32` bytes, and the counter of the header
is back at zero: the message counts the chunks and carries none of them. -/
theorem full_batch_lost :
    ∃ s m, dataSenderRun largeBatch [3] (fun _ => 0)
        (uploadItems (List.replicate (2 ^ 18) fullFrame) ⟨4293918720, 262144⟩) = .ok s ∧
      s.sent = [m, recipeEndMsg ⟨4293918720, 262144⟩] ∧
      m.currentItemNum.toNat = 2 ^ 18 ∧ m.data = [] ∧
      framedChunks largeBatch [3] (fun _ => 0) m ≠
        (List.replicate (2 ^ 18) fullFrame).map (·.val) := by
  have hlen : fullFrame.val.length = 16380 := List.length_replicate
  obtain ⟨s, hrun, hsent⟩ := full_batch_sent (p := largeBatch) [3]
    (n := 2 ^ 18 - 1) fullFrame rfl (by rw [hlen]; decide) (fun _ => 0)
    ⟨4293918720, 262144⟩
  refine ⟨s, _, hrun, hsent, rfl, rfl, fun heq => ?_⟩
  obtain ⟨rest, hfirst⟩ := framedChunks_empty (p := largeBatch) [3]
    .clientUploadChunk (UInt32.ofNat (2 ^ 18 - 1 + 1)) (n := 2 ^ 18 - 1) rfl
  have hhead : ([] : Bytes) = fullFrame.val := by
    rw [hfirst, List.map_replicate, show 2 ^ 18 = (2 ^ 18 - 1) + 1 from rfl,
      List.replicate_succ] at heq
    exact (List.cons.inj heq).1
  rw [← hhead] at hlen
  cases hlen

end Debe
