import Debe.Storage

/-!
# The chunk codec

On the way in a chunk is compressed when that makes it smaller and stored raw
otherwise; nothing in the stored form says which.  On the way out
`RecoverOneChunk` tries to decompress and takes a positive result as proof that
the chunk had been compressed.  A raw chunk that happens to be an LZ4 block is
therefore replaced by what it decodes to.

The Baseline pair is the same codec without the encryption.
-/

namespace Debe

open Records

/-- The buffer that restored chunks are appended to: the record count and the
first `dataSize` bytes. -/
structure RestoreBuf where
  currentItemNum : Nat
  dataBuffer : Bytes
  deriving DecidableEq, Repr

/-- One more record, its size in front. -/
def RestoreBuf.append (buf : RestoreBuf) (chunk : Bytes) : RestoreBuf where
  currentItemNum := buf.currentItemNum + 1
  dataBuffer := buf.dataBuffer ++ frame chunk

/-- The decoder's choice: the decompressed bytes when there are any, else the
bytes themselves. -/
def decompressOrKeep (data : Bytes) : Bytes :=
  match lz4DecompressSafe data maxChunkSize with
  | some out => if 0 < out.length then out else data
  | none => data

/-- What the decoder appends fits a 32-bit size whenever what it was given does. -/
theorem length_decompressOrKeep {data : Bytes} (h : data.length < 2 ^ 32) :
    (decompressOrKeep data).length < 2 ^ 32 := by
  unfold decompressOrKeep
  cases hd : lz4DecompressSafe data maxChunkSize with
  | none => exact h
  | some out =>
      dsimp only
      split
      · exact lt_of_le_of_lt (lz4DecompressSafe_length hd) (by decide)
      · exact h

/-- `EcallRecvDecoder::RecoverOneChunk`. -/
def recoverOneChunk (p : Params) (chunkBuffer : Bytes) (chunkSize : Nat) (buf : RestoreBuf) :
    RestoreBuf :=
  let iv := (chunkBuffer.drop chunkSize).take cryptoBlockSize
  let data := p.crypto.decryptionWithKeyIV p.enclaveKey iv (chunkBuffer.take chunkSize)
  buf.append (decompressOrKeep data)

/-! ## The Baseline pair -/

/-- The Baseline server's storing state: there is no in-enclave copy, chunks go
straight into the current container. -/
structure BaselineUpload where
  curContainer : Container
  disk : Disk
  compressedDataSize : Nat
  deriving DecidableEq, Repr

/-- `StorageCore::SaveChunk` with `WriteContainer`. -/
def baselineSaveChunk (p : Params) (chunkData : Bytes) (u : BaselineUpload) :
    RecipeEntry × BaselineUpload :=
  let c := u.curContainer
  if chunkData.length + c.body.length < maxContainerSize then
    ({ containerName := c.containerID
       offset := UInt32.ofNat c.body.length
       length := UInt32.ofNat chunkData.length },
      { u with curContainer := { c with body := c.body ++ chunkData } })
  else
    let w := ocallWriteContainer p u.disk c
    ({ containerName := w.2.containerID
       offset := 0
       length := UInt32.ofNat chunkData.length },
      { u with curContainer := { w.2 with body := chunkData }, disk := w.1 })

/-- `AbsIndex::ProcessUniqueChunk`. -/
def baselineProcessUniqueChunk (p : Params) (chunk : Bytes) (u : BaselineUpload) :
    RecipeEntry × BaselineUpload :=
  let data := payload p chunk
  baselineSaveChunk p data { u with compressedDataSize := u.compressedDataSize + data.length }

/-- `RecvDecoder::RecoverOneChunk`. -/
def baselineRecoverOneChunk (chunkBuffer : Bytes) (chunkSize : Nat) (buf : RestoreBuf) :
    RestoreBuf :=
  buf.append (decompressOrKeep (chunkBuffer.take chunkSize))

/-! ## When the codec is lossless -/

/-- The chunk is stored compressed, or its raw bytes do not decode to anything
else. -/
def CodecSafe (p : Params) (chunk : Bytes) : Prop :=
  p.lz4.compressFast chunk chunk.length ≠ [] ∨
  lz4DecompressSafe chunk maxChunkSize = none ∨
  lz4DecompressSafe chunk maxChunkSize = some [] ∨
  lz4DecompressSafe chunk maxChunkSize = some chunk

theorem frame_injective {x y : Bytes} (h : frame x = frame y) : x = y := by
  have hd := congrArg (List.drop 4) h
  simpa [frame] using hd

theorem RestoreBuf.append_inj {buf : RestoreBuf} {x y : Bytes} :
    buf.append x = buf.append y ↔ x = y := by
  constructor
  · intro h
    have hdata : buf.dataBuffer ++ frame x = buf.dataBuffer ++ frame y :=
      congrArg RestoreBuf.dataBuffer h
    exact frame_injective (List.append_cancel_left hdata)
  · rintro rfl
    rfl

/-- The decoder returns the chunk exactly when the codec is safe for it. -/
theorem decompressOrKeep_payload {p : Params} {chunk : Bytes} (hne : chunk ≠ [])
    (hchunk : chunk.length ≤ maxChunkSize) :
    decompressOrKeep (payload p chunk) = chunk ↔ CodecSafe p chunk := by
  have hpos : 0 < chunk.length := List.length_pos_iff.mpr hne
  by_cases hc : p.lz4.compressFast chunk chunk.length = []
  · -- stored raw: what matters is what the raw bytes decode to
    have hpay : payload p chunk = chunk := by simp [payload, hc]
    rw [hpay]
    unfold decompressOrKeep CodecSafe
    cases hd : lz4DecompressSafe chunk maxChunkSize with
    | none => simp
    | some out =>
        dsimp only
        by_cases hout : out = []
        · simp [hout]
        · simp [hc, hout, List.length_pos_iff]
  · have hpay : payload p chunk = p.lz4.compressFast chunk chunk.length := by
      simp [payload, hc, List.length_pos_iff]
    have hdec := p.lz4.decompressSafe_compressFast chunk chunk.length hchunk hc
    rw [hpay]
    unfold decompressOrKeep CodecSafe
    rw [hdec]
    simp [hpos, hc]

/-- What `RecoverOneChunk` appends for a stored record, whatever follows it. -/
theorem recoverOneChunk_storedRecord (p : Params) (chunk rest : Bytes) (iv : IV)
    (buf : RestoreBuf) :
    recoverOneChunk p (storedRecord p chunk iv ++ rest) (payload p chunk).length buf =
      buf.append (decompressOrKeep (payload p chunk)) := by
  have hlen : (p.crypto.encryptWithKeyIV p.enclaveKey iv.toBytes (payload p chunk)).length =
      (payload p chunk).length := p.crypto.length_encryptWithKeyIV _ _ _
  have htake : (storedRecord p chunk iv ++ rest).take (payload p chunk).length =
      p.crypto.encryptWithKeyIV p.enclaveKey iv.toBytes (payload p chunk) := by
    rw [storedRecord, List.append_assoc, ← hlen, List.take_left]
  have hiv : ((storedRecord p chunk iv ++ rest).drop (payload p chunk).length).take
      cryptoBlockSize = iv.toBytes := by
    rw [storedRecord, List.append_assoc, ← hlen, List.drop_left, ← iv.length_toBytes,
      List.take_left]
  simp only [recoverOneChunk, htake, hiv, p.crypto.decryptionWithKeyIV_encryptWithKeyIV]

/-- Bytes selected by an address stand at the front of what starts at its offset. -/
theorem drop_eq_slice_append (body : Bytes) (a : RecipeEntry) :
    ∃ rest, body.drop a.offset.toNat = slice body a ++ rest :=
  ⟨_, (List.take_append_drop _ _).symm⟩

/-- The Baseline address selects the payload in the current container. -/
theorem baselineProcessUniqueChunk_address (p : Params) {chunk : Bytes} {u : BaselineUpload}
    (hchunk : chunk.length ≤ maxChunkSize) :
    ((baselineProcessUniqueChunk p chunk u).2.curContainer.body.drop
        (baselineProcessUniqueChunk p chunk u).1.offset.toNat).take
      (baselineProcessUniqueChunk p chunk u).1.length.toNat = payload p chunk := by
  have hle := length_payload_le p chunk
  have hmax : (payload p chunk).length ≤ 16384 := hle.trans hchunk
  have hd : (UInt32.ofNat (payload p chunk).length).toNat = (payload p chunk).length :=
    UInt32.toNat_ofNat_of_lt' (by unfold UInt32.size; omega)
  unfold baselineProcessUniqueChunk baselineSaveChunk
  dsimp only
  split
  · rename_i hfit
    have hp : (UInt32.ofNat u.curContainer.body.length).toNat = u.curContainer.body.length := by
      apply UInt32.toNat_ofNat_of_lt'
      unfold maxContainerSize at hfit
      unfold UInt32.size
      omega
    simp only [hp, hd, List.drop_left, List.take_length]
  · simp only [hd, UInt32.toNat_zero, List.drop_zero, List.take_length]

/-- **When a chunk survives the codec.**  For every non-empty chunk, every state
it is stored in and every buffer it is restored to, both the Prototype pair and
the Baseline pair give the chunk back exactly when LZ4 made it smaller, or its
raw bytes are not a block with a non-empty decoding other than themselves. -/
theorem codec_roundtrip_iff (p : Params) (chunk : Bytes) (hne : chunk ≠ [])
    (hchunk : chunk.length ≤ maxChunkSize) :
    (∀ (u : Upload) (buf : RestoreBuf),
      recoverOneChunk p
        ((processUniqueChunk p chunk u).2.client.pending.body.drop
          (processUniqueChunk p chunk u).1.offset.toNat)
        (processUniqueChunk p chunk u).1.length.toNat buf = buf.append chunk ↔
      CodecSafe p chunk) ∧
    (∀ (u : BaselineUpload) (buf : RestoreBuf),
      baselineRecoverOneChunk
        ((baselineProcessUniqueChunk p chunk u).2.curContainer.body.drop
          (baselineProcessUniqueChunk p chunk u).1.offset.toNat)
        (baselineProcessUniqueChunk p chunk u).1.length.toNat buf = buf.append chunk ↔
      CodecSafe p chunk) := by
  constructor
  · intro u buf
    obtain ⟨_, hsize, hslice⟩ := processUniqueChunk_address p (u := u) hchunk
    obtain ⟨rest, hrest⟩ := drop_eq_slice_append
      (processUniqueChunk p chunk u).2.client.pending.body (processUniqueChunk p chunk u).1
    rw [hrest, hslice, hsize, recoverOneChunk_storedRecord, RestoreBuf.append_inj,
      decompressOrKeep_payload hne hchunk]
  · intro u buf
    rw [baselineRecoverOneChunk, baselineProcessUniqueChunk_address p hchunk,
      RestoreBuf.append_inj, decompressOrKeep_payload hne hchunk]

/-- The chunk `A` survives: one byte cannot be compressed, and as a block it is
malformed. -/
theorem codec_roundtrip_iff_small :
    recoverOneChunk smallParams
      ((processUniqueChunk smallParams [0x41] smallUpload).2.client.pending.body.drop
        (processUniqueChunk smallParams [0x41] smallUpload).1.offset.toNat)
      (processUniqueChunk smallParams [0x41] smallUpload).1.length.toNat ⟨0, []⟩ =
      RestoreBuf.append ⟨0, []⟩ [0x41] :=
  ((codec_roundtrip_iff smallParams [0x41] (by decide) (by decide)).1 smallUpload ⟨0, []⟩).mpr
    (Or.inr (Or.inl (by decide)))

/-- The chunk `10 41` is stored raw, since no block of at most two bytes encodes
it, and is a block itself: one literal, `41`.  That is what comes back. -/
theorem codec_loses_literal_block :
    recoverOneChunk smallParams
      ((processUniqueChunk smallParams [0x10, 0x41] smallUpload).2.client.pending.body.drop
        (processUniqueChunk smallParams [0x10, 0x41] smallUpload).1.offset.toNat)
      (processUniqueChunk smallParams [0x10, 0x41] smallUpload).1.length.toNat ⟨0, []⟩ ≠
      RestoreBuf.append ⟨0, []⟩ [0x10, 0x41] ∧
    baselineRecoverOneChunk
      ((baselineProcessUniqueChunk smallParams [0x10, 0x41]
          { curContainer := { containerID := smallParams.uuid 0, body := [] }
            disk := smallUpload.disk, compressedDataSize := 0 }).2.curContainer.body)
      2 ⟨0, []⟩ = RestoreBuf.append ⟨0, []⟩ [0x41] := by
  decide

end Debe
