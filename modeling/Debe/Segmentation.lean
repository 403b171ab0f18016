import Debe.ExtremeBin
import Debe.Framing
import Debe.SparseIndex
import Debe.Lib.Splits

/-!
# Segmentation

Extreme binning and sparse indexing collect the chunks of a client in a segment, which lives in
the client's state and outlasts a batch.  Before a chunk is added `IsEndOfSegment` looks at the
segment and at the chunk: the segment is full, or it would be too large, or it is large enough
and the chunk's hash says so.  Then the segment is processed and reset, and the chunk is the
first of the next one.

`Segment` is what `ProcessOneSegment` sees.  Here a segment is the memory it lives in, a buffer
and an array of fixed sizes, with the two counters up to which they mean anything.
-/

namespace Debe

open Records LittleEndian

/-- `MIN_SEGMENT_SIZE`. -/
def minSegmentSize : UInt32 := 5242880

/-- `MAX_SEGMENT_SIZE`. -/
def maxSegmentSize : UInt32 := 20971520

/-- `maxSegmentChunkNum_`: `MAX_SEGMENT_SIZE / MIN_CHUNK_SIZE`. -/
def maxSegmentChunkNum : Nat := maxSegmentSize.toNat / 4096

/-- `DIVISOR`. -/
def divisor : UInt32 := 640

/-- `PATTERN`. -/
def pattern : UInt32 := 1

/-- `UINT32_MAX`. -/
def uint32Max : UInt32 := 4294967295

/-- `Segment_t` as it lies in memory. -/
structure SegmentBuffer where
  chunkNum : UInt32
  segmentSize : UInt32
  minHashVal : UInt32
  minHash : ChunkHash
  buffer : Bytes
  metadata : List SegmentMeta
  deriving DecidableEq, Repr

/-- The segment in the memory. -/
def SegmentBuffer.contents (s : SegmentBuffer) : Segment where
  minHashVal := s.minHashVal
  minHash := s.minHash
  buffer := s.buffer.take s.segmentSize.toNat
  metadata := s.metadata.take s.chunkNum.toNat

/-- What the memory of a segment holds before anything is written to it. -/
structure SegmentHeap where
  minHash : ChunkHash
  buffer : Nat → UInt8
  metadata : Nat → SegmentMeta

/-- `InitUploadBuffer`. -/
def SegmentBuffer.init (heap : SegmentHeap) : SegmentBuffer where
  chunkNum := 0
  segmentSize := 0
  minHashVal := uint32Max
  minHash := heap.minHash
  buffer := freshBytes heap.buffer maxSegmentSize.toNat
  metadata := (List.range maxSegmentChunkNum).map heap.metadata

/-- `ResetCurrentSegment`. -/
def SegmentBuffer.reset (s : SegmentBuffer) : SegmentBuffer :=
  { s with
    chunkNum := 0
    minHashVal := uint32Max
    segmentSize := 0 }

/-- `ConvertHashToValue`. -/
def convertHashToValue (inputHash : ChunkHash) : UInt32 :=
  inputHash.1.foldl (fun hashVal b => hashVal + b.toUInt32) 0

/-- `IsEndOfSegment`. -/
def isEndOfSegment (chunkHashVal chunkSize : UInt32) (segment : SegmentBuffer) : Bool :=
  if maxSegmentChunkNum < (segment.chunkNum + 1).toNat then true
  else if segment.segmentSize + chunkSize < minSegmentSize then false
  else if maxSegmentSize < segment.segmentSize + chunkSize then true
  else chunkHashVal % divisor = pattern

/-- Add a chunk to the segment. -/
def SegmentBuffer.add (tmpHash : ChunkHash) (chunkData : Bytes) (s : SegmentBuffer) :
    Except Fault SegmentBuffer := do
  let buffer ← inRange (Buffer.write s.buffer s.segmentSize.toNat chunkData)
  let metadata ← inRange (Buffer.write s.metadata s.chunkNum.toNat
    [{ chunkSize := UInt32.ofNat chunkData.length, chunkHash := tmpHash }])
  return { s with
    chunkNum := s.chunkNum + 1
    segmentSize := s.segmentSize + UInt32.ofNat chunkData.length
    buffer := buffer
    metadata := metadata }

/-- Note the least hash. -/
def SegmentBuffer.noteMin (chunkHashVal : UInt32) (tmpHash : ChunkHash) (s : SegmentBuffer) :
    SegmentBuffer :=
  if chunkHashVal < s.minHashVal then { s with minHashVal := chunkHashVal, minHash := tmpHash }
  else s

/-- A design with segments: whether it notes the least hash, how it processes a segment, and the
end of its `ProcessTailBatch`. -/
structure SegmentDesign (σ : Type) where
  params : Params
  notesMin : Bool
  processOneSegment : Segment → σ → Except Fault σ
  processTail : σ → σ

section Designs

variable {σ : Type} (d : SegmentDesign σ)

/-- Process the segment and reset it. -/
def SegmentDesign.endSegment (s : σ × SegmentBuffer) : Except Fault (σ × SegmentBuffer) := do
  let server ← d.processOneSegment s.2.contents s.1
  return (server, s.2.reset)

/-- The body of the loop of `ProcessOneBatch`, over the server and the segment of the client. -/
def SegmentDesign.processChunk (s : σ × SegmentBuffer) (chunkData : Bytes) :
    Except Fault (σ × SegmentBuffer) := do
  let tmpHash := d.params.fingerprint chunkData
  let chunkHashVal := convertHashToValue tmpHash
  let s ← if isEndOfSegment chunkHashVal (UInt32.ofNat chunkData.length) s.2 then d.endSegment s
    else .ok s
  let segment ← s.2.add tmpHash chunkData
  return (s.1, if d.notesMin then segment.noteMin chunkHashVal tmpHash else segment)

/-- `ProcessOneBatch`. -/
def SegmentDesign.processOneBatch (sessionKey : Bytes) (stale : Nat → UInt8) (m : FramedMsg)
    (s : σ × SegmentBuffer) : Except Fault (σ × SegmentBuffer) :=
  (framedChunks d.params sessionKey stale m).foldlM d.processChunk s

/-- `ProcessTailBatch`. -/
def SegmentDesign.processTailBatch (s : σ × SegmentBuffer) :
    Except Fault (σ × SegmentBuffer) := do
  let s ← if s.2.chunkNum ≠ 0 then d.endSegment s else .ok s
  return (d.processTail s.1, s.2)

end Designs

/-- `EcallExtremeBinIndex`. -/
def extremeDesign (p : SegmentParams) : SegmentDesign ExtremeServer where
  params := p.toParams
  notesMin := true
  processOneSegment segment s := s.step p (.segment segment)
  processTail s := { s with upload := processTailBatch p.toParams s.upload }

/-- `EcallSparseIndex`, which has no use for the least hash. -/
def sparseDesign (p : SparseParams) : SegmentDesign SparseServer where
  params := p.toParams
  notesMin := false
  processOneSegment segment s := s.step p (.segment segment)
  processTail s := { s with upload := processTailBatch p.toParams s.upload }

/-- The batches of an upload, each with what its receive buffer held behind it. -/
def SegmentDesign.processBatches {σ : Type} (d : SegmentDesign σ) (sessionKey : Bytes)
    (msgs : List ((Nat → UInt8) × FramedMsg)) (s : σ × SegmentBuffer) :
    Except Fault (σ × SegmentBuffer) :=
  msgs.foldlM (fun s m => d.processOneBatch sessionKey m.1 m.2 s) s

/-- An upload: the batches, and the tail. -/
def SegmentDesign.upload {σ : Type} (d : SegmentDesign σ) (sessionKey : Bytes)
    (msgs : List ((Nat → UInt8) × FramedMsg)) (s : σ × SegmentBuffer) :
    Except Fault (σ × SegmentBuffer) := do
  let s ← d.processBatches sessionKey msgs s
  d.processTailBatch s

/-! ## Where a segment ends -/

/-- The bytes of some chunks. -/
def chunkBytes (chunks : List Chunk) : Bytes := chunks.flatMap Subtype.val

/-- The value of a chunk's hash. -/
def chunkHashVal (p : Params) (c : Chunk) : UInt32 := convertHashToValue (p.fingerprint c.1)

/-- A segment of these chunks ends before that chunk. -/
def ClosesSegment (p : Params) (cur : List Chunk) (c : Chunk) : Prop :=
  maxSegmentChunkNum < cur.length + 1 ∨
    (minSegmentSize.toNat ≤ (chunkBytes cur).length + c.1.length ∧
      (maxSegmentSize.toNat < (chunkBytes cur).length + c.1.length ∨
        chunkHashVal p c % divisor = pattern))

instance (p : Params) (cur : List Chunk) (c : Chunk) : Decidable (ClosesSegment p cur c) :=
  inferInstanceAs (Decidable (_ ∨ _))

/-- A segment without chunks goes on. -/
theorem not_closesSegment_nil (p : Params) (c : Chunk) : ¬ ClosesSegment p [] c := by
  have hmin : (chunkBytes []).length + c.1.length < minSegmentSize.toNat := by
    rw [chunkBytes, List.flatMap_nil, List.length_nil, Nat.zero_add]
    exact c.2.trans_lt (by decide)
  rintro (hnum | ⟨hsize, -⟩)
  · exact absurd hnum (by decide)
  · omega

theorem chunkBytes_concat (cur : List Chunk) (c : Chunk) :
    chunkBytes (cur ++ [c]) = chunkBytes cur ++ c.1 := by
  rw [chunkBytes, List.flatMap_append, List.flatMap_singleton]
  rfl

/-- A segment that goes on has room for the chunk. -/
theorem room_of_not_closes {p : Params} {cur : List Chunk} {c : Chunk}
    (h : ¬ ClosesSegment p cur c) :
    cur.length + 1 ≤ maxSegmentChunkNum ∧
      (chunkBytes cur).length + c.1.length ≤ maxSegmentSize.toNat := by
  have hconst : minSegmentSize.toNat ≤ maxSegmentSize.toNat := by decide
  refine ⟨?_, ?_⟩
  · by_contra hnum
    exact h (Or.inl (Nat.lt_of_not_le hnum))
  · by_contra hsize
    exact h (Or.inr ⟨by omega, Or.inl (Nat.lt_of_not_le hsize)⟩)

/-- A segment that a client can have. -/
abbrev SegmentBuilt (p : Params) : List Chunk → Prop := Splits.Built (ClosesSegment p)

/-- **Sizes.**  It has chunks, and no more of them and no more bytes than there is room for. -/
theorem SegmentBuilt.sizes {p : Params} {cur : List Chunk} (h : SegmentBuilt p cur) :
    cur ≠ [] ∧ cur.length ≤ maxSegmentChunkNum ∧
      (chunkBytes cur).length ≤ maxSegmentSize.toNat := by
  refine ⟨h.ne_nil, ?_⟩
  induction h with
  | single c =>
      refine ⟨show 1 ≤ maxSegmentChunkNum by decide, ?_⟩
      rw [chunkBytes, List.flatMap_singleton]
      exact c.2.trans (by decide)
  | grow hl hopen ih =>
      obtain ⟨hnum, hsize⟩ := room_of_not_closes hopen
      rw [List.length_append, chunkBytes_concat, List.length_append]
      exact ⟨hnum, hsize⟩

/-! ## The least hash -/

/-- Note the least hash of the chunks so far. -/
def minStep (p : Params) (m : UInt32 × ChunkHash) (c : Chunk) : UInt32 × ChunkHash :=
  if chunkHashVal p c < m.1 then (chunkHashVal p c, p.fingerprint c.1) else m

/-- The least hash of some chunks. -/
def minOf (p : Params) (cur : List Chunk) : UInt32 × ChunkHash :=
  cur.foldl (minStep p) (uint32Max, ChunkHash.ofBytes [])

theorem minOf_concat (p : Params) (cur : List Chunk) (c : Chunk) :
    minOf p (cur ++ [c]) = minStep p (minOf p cur) c := by
  rw [minOf, List.foldl_append]
  rfl

theorem toNat_foldl_le (bs : Bytes) (v : UInt32) :
    (bs.foldl (fun hashVal b => hashVal + b.toUInt32) v).toNat ≤ v.toNat + 255 * bs.length := by
  induction bs generalizing v with
  | nil => simp
  | cons b bs ih =>
      have hrest := ih (v + b.toUInt32)
      have hbyte := b.toNat_lt
      have hadd : (v + b.toUInt32).toNat ≤ v.toNat + b.toNat := by
        rw [UInt32.toNat_add, UInt8.toNat_toUInt32]
        exact Nat.mod_le _ _
      rw [List.foldl_cons, List.length_cons]
      omega

/-- The value of a hash is small: a first chunk always has the least hash so far. -/
theorem convertHashToValue_lt (hash : ChunkHash) : convertHashToValue hash < uint32Max := by
  have hle := toNat_foldl_le hash.1 0
  rw [hash.2] at hle
  rw [UInt32.lt_iff_toNat_lt]
  exact Nat.lt_of_le_of_lt hle (by decide)

/-- The first of the chunks with the least value. -/
structure FirstMin (p : Params) (cur : List Chunk) (minHash : ChunkHash) (pre : List Chunk)
    (c : Chunk) (post : List Chunk) : Prop where
  eq : cur = pre ++ c :: post
  minHash : minHash = p.fingerprint c.1
  before : ∀ x ∈ pre, chunkHashVal p c < chunkHashVal p x
  after : ∀ x ∈ post, chunkHashVal p c ≤ chunkHashVal p x

/-- **The least hash** is that of the first chunk with the least value. -/
theorem minOf_spec (p : Params) {cur : List Chunk} (hcur : cur ≠ []) :
    ∃ pre c post, FirstMin p cur (minOf p cur).2 pre c post ∧
      (minOf p cur).1 = chunkHashVal p c := by
  induction cur using List.reverseRecOn with
  | nil => exact absurd rfl hcur
  | append_singleton cur c ih =>
      rw [minOf_concat, minStep]
      by_cases hnil : cur = []
      · subst hnil
        have hlt : chunkHashVal p c < (minOf p []).1 := convertHashToValue_lt _
        rw [if_pos hlt]
        exact ⟨[], c, [], ⟨rfl, rfl, by simp, by simp⟩, rfl⟩
      · obtain ⟨pre, m, post, hfirst, hval⟩ := ih hnil
        by_cases hlt : chunkHashVal p c < (minOf p cur).1
        · rw [if_pos hlt]
          refine ⟨cur, c, [], ⟨rfl, rfl, fun x hx => ?_, by simp⟩, rfl⟩
          rw [hval] at hlt
          rw [hfirst.eq] at hx
          rcases List.mem_append.mp hx with hx | hx
          · exact UInt32.lt_trans hlt (hfirst.before x hx)
          · rcases List.mem_cons.mp hx with rfl | hx
            · exact hlt
            · exact UInt32.lt_of_lt_of_le hlt (hfirst.after x hx)
        · rw [if_neg hlt]
          refine ⟨pre, m, post ++ [c], ⟨?_, hfirst.minHash, hfirst.before, fun x hx => ?_⟩, hval⟩
          · rw [hfirst.eq, List.append_assoc, List.cons_append]
          · rcases List.mem_append.mp hx with hx | hx
            · exact hfirst.after x hx
            · rw [List.mem_singleton.mp hx, ← hval]
              exact UInt32.not_lt.mp hlt

/-! ## The memory of a segment -/

section Memory

variable {σ : Type} {d : SegmentDesign σ} {heap : SegmentHeap} {s s' : SegmentBuffer}
  {cur : List Chunk} {c : Chunk}

/-- The records of some chunks. -/
def chunkMetas (p : Params) (cur : List Chunk) : List SegmentMeta :=
  cur.map fun c => chunkMeta p c.1

/-- The segment in memory is that of the chunks: they are in the buffer, their records in the
array, and the counters count them. -/
structure SegmentBuffer.Holds (d : SegmentDesign σ) (heap : SegmentHeap) (cur : List Chunk)
    (s : SegmentBuffer) : Prop where
  chunkNum : s.chunkNum.toNat = cur.length
  segmentSize : s.segmentSize.toNat = (chunkBytes cur).length
  buffer : Buffer.Filled maxSegmentSize.toNat (chunkBytes cur) s.buffer
  metadata : Buffer.Filled maxSegmentChunkNum (chunkMetas d.params cur) s.metadata
  minHashVal : s.minHashVal = if d.notesMin then (minOf d.params cur).1 else uint32Max
  minHash : s.minHash = heap.minHash ∨ d.notesMin = true
  noted : d.notesMin = true → cur ≠ [] → s.minHash = (minOf d.params cur).2

/-- The segment of some chunks. -/
def segmentOf (d : SegmentDesign σ) (heap : SegmentHeap) (cur : List Chunk) : Segment where
  minHashVal := if d.notesMin then (minOf d.params cur).1 else uint32Max
  minHash := if d.notesMin then (minOf d.params cur).2 else heap.minHash
  buffer := chunkBytes cur
  metadata := chunkMetas d.params cur

/-- An empty segment in any memory of the right size. -/
theorem SegmentBuffer.holds_empty (d : SegmentDesign σ) (heap : SegmentHeap) {buffer : Bytes}
    {metadata : List SegmentMeta} (hbuffer : buffer.length = maxSegmentSize.toNat)
    (hmetadata : metadata.length = maxSegmentChunkNum) :
    (SegmentBuffer.mk 0 0 uint32Max heap.minHash buffer metadata).Holds d heap [] where
  chunkNum := rfl
  segmentSize := rfl
  buffer := ⟨hbuffer, List.nil_prefix⟩
  metadata := ⟨hmetadata, List.nil_prefix⟩
  minHashVal := (ite_self _).symm
  minHash := Or.inl rfl
  noted := fun _ hne => absurd rfl hne

theorem SegmentBuffer.holds_init (d : SegmentDesign σ) (heap : SegmentHeap) :
    (SegmentBuffer.init heap).Holds d heap [] := by
  have hmetadata : ((List.range maxSegmentChunkNum).map heap.metadata).length =
      maxSegmentChunkNum := by
    rw [List.length_map, List.length_range]
  exact holds_empty d heap (length_freshBytes heap.buffer maxSegmentSize.toNat) hmetadata

theorem SegmentBuffer.Holds.reset (h : s.Holds d heap cur) : s.reset.Holds d heap [] where
  chunkNum := rfl
  segmentSize := rfl
  buffer := h.buffer.restart
  metadata := h.metadata.restart
  minHashVal := (ite_self _).symm
  minHash := h.minHash
  noted := fun _ hne => absurd rfl hne

/-- The counters never leave the memory. -/
theorem SegmentBuffer.Holds.bounds (h : s.Holds d heap cur) :
    s.chunkNum.toNat ≤ maxSegmentChunkNum ∧ s.segmentSize.toNat ≤ maxSegmentSize.toNat := by
  have hbuffer := h.buffer.begins.length_le
  have hmetadata := h.metadata.begins.length_le
  rw [h.buffer.length] at hbuffer
  rw [h.metadata.length, chunkMetas, List.length_map] at hmetadata
  rw [h.chunkNum, h.segmentSize]
  exact ⟨hmetadata, hbuffer⟩

/-- What `ProcessOneSegment` sees. -/
theorem SegmentBuffer.Holds.contents (h : s.Holds d heap cur) (hne : cur ≠ []) :
    s.contents = segmentOf d heap cur := by
  have hnum : s.chunkNum.toNat = (chunkMetas d.params cur).length := by
    rw [h.chunkNum, chunkMetas, List.length_map]
  rw [SegmentBuffer.contents, segmentOf, h.segmentSize, h.buffer.take, hnum, h.metadata.take,
    h.minHashVal]
  by_cases hnotes : d.notesMin = true
  · rw [h.noted hnotes hne, if_pos hnotes, if_pos hnotes]
  · rw [h.minHash.resolve_right hnotes, if_neg hnotes, if_neg hnotes]

/-- The size of a chunk as it is read. -/
theorem toNat_chunkSize (c : Chunk) : (UInt32.ofNat c.1.length).toNat = c.1.length :=
  UInt32.toNat_ofNat_of_lt' (c.2.trans_lt (by decide))

/-- **`IsEndOfSegment`** does not wrap. -/
theorem SegmentBuffer.Holds.isEnd_iff (h : s.Holds d heap cur) :
    isEndOfSegment (chunkHashVal d.params c) (UInt32.ofNat c.1.length) s = true ↔
      ClosesSegment d.params cur c := by
  obtain ⟨hnum, hsize⟩ := h.bounds
  have hnumMax : maxSegmentChunkNum = 5120 := rfl
  have hsizeMax : maxSegmentSize.toNat = 20971520 := rfl
  have hchunk : c.1.length ≤ 16384 := c.2
  have hcount : (s.chunkNum + 1).toNat = cur.length + 1 := by
    rw [UInt32.toNat_add, h.chunkNum]
    exact Nat.mod_eq_of_lt (by rw [← h.chunkNum]; change _ + 1 < _; omega)
  have htotal : (s.segmentSize + UInt32.ofNat c.1.length).toNat =
      (chunkBytes cur).length + c.1.length := by
    rw [UInt32.toNat_add, toNat_chunkSize, h.segmentSize]
    exact Nat.mod_eq_of_lt (by rw [← h.segmentSize]; omega)
  simp only [isEndOfSegment, ClosesSegment, hcount, UInt32.lt_iff_toNat_lt, htotal]
  split
  · exact ⟨fun _ => Or.inl ‹_›, fun _ => rfl⟩
  · rename_i hfew
    rw [or_iff_right hfew]
    split
    · rename_i hsmall
      exact ⟨fun hfalse => (by cases hfalse), fun hlarge => absurd hlarge.1 (Nat.not_le.mpr hsmall)⟩
    · rename_i hlarge
      rw [and_iff_right (Nat.not_lt.mp hlarge)]
      split
      · exact ⟨fun _ => Or.inl ‹_›, fun _ => rfl⟩
      · rename_i hfits
        rw [or_iff_right hfits, decide_eq_true_iff]

/-- The chunks in the memory of the segment, with the least hash as it was before the last. -/
structure SegmentBuffer.Copied (d : SegmentDesign σ) (cur : List Chunk) (s s' : SegmentBuffer) :
    Prop where
  chunkNum : s'.chunkNum.toNat = cur.length
  segmentSize : s'.segmentSize.toNat = (chunkBytes cur).length
  buffer : Buffer.Filled maxSegmentSize.toNat (chunkBytes cur) s'.buffer
  metadata : Buffer.Filled maxSegmentChunkNum (chunkMetas d.params cur) s'.metadata
  minHashVal : s'.minHashVal = s.minHashVal
  minHash : s'.minHash = s.minHash

/-- A chunk that does not close the segment has room in it. -/
theorem SegmentBuffer.Holds.copy (h : s.Holds d heap cur)
    (hopen : ¬ ClosesSegment d.params cur c) :
    ∃ s', s.add (d.params.fingerprint c.1) c.1 = .ok s' ∧ s.Copied d (cur ++ [c]) s' := by
  obtain ⟨hnum, hsize⟩ := room_of_not_closes hopen
  have hnumMax : maxSegmentChunkNum = 5120 := rfl
  have hsizeMax : maxSegmentSize.toNat = 20971520 := rfl
  obtain ⟨buffer, hwrite, hbuffer⟩ := h.buffer.write c.1 hsize
  have hmeta : [SegmentMeta.mk (UInt32.ofNat c.1.length) (d.params.fingerprint c.1)] =
      [chunkMeta d.params c.1] := rfl
  have hlen : (chunkMetas d.params cur).length = cur.length := by
    rw [chunkMetas, List.length_map]
  obtain ⟨metadata, hwrite', hmetadata⟩ := h.metadata.write [chunkMeta d.params c.1]
    (by rw [hlen]; exact hnum)
  rw [← chunkBytes_concat] at hbuffer
  have hmetas : chunkMetas d.params cur ++ [chunkMeta d.params c.1] =
      chunkMetas d.params (cur ++ [c]) := by
    rw [chunkMetas, chunkMetas, List.map_append, List.map_singleton]
  rw [hmetas] at hmetadata
  let s' : SegmentBuffer := { s with
    chunkNum := s.chunkNum + 1
    segmentSize := s.segmentSize + UInt32.ofNat c.1.length
    buffer := buffer
    metadata := metadata }
  have hadd : s.add (d.params.fingerprint c.1) c.1 = .ok s' := by
    rw [hlen] at hwrite'
    simp only [SegmentBuffer.add, h.segmentSize, h.chunkNum, hwrite, hmeta, hwrite', inRange, bind,
      Except.bind, pure, Except.pure, s']
  have hcount : s'.chunkNum.toNat = (cur ++ [c]).length := by
    rw [UInt32.toNat_add, h.chunkNum, List.length_append]
    exact Nat.mod_eq_of_lt (by change cur.length + 1 < _; omega)
  have htotal : s'.segmentSize.toNat = (chunkBytes (cur ++ [c])).length := by
    rw [UInt32.toNat_add, toNat_chunkSize, h.segmentSize, chunkBytes_concat, List.length_append]
    exact Nat.mod_eq_of_lt (by omega)
  exact ⟨s', hadd, hcount, htotal, hbuffer, hmetadata, rfl, rfl⟩

/-- A design without the least hash leaves it as it is. -/
theorem SegmentBuffer.Copied.holds (hcopied : s.Copied d (cur ++ [c]) s')
    (h : s.Holds d heap cur) (hnotes : d.notesMin ≠ true) : s'.Holds d heap (cur ++ [c]) where
  chunkNum := hcopied.chunkNum
  segmentSize := hcopied.segmentSize
  buffer := hcopied.buffer
  metadata := hcopied.metadata
  minHashVal := by
    rw [hcopied.minHashVal, h.minHashVal, if_neg hnotes, if_neg hnotes]
  minHash := by
    rw [hcopied.minHash]
    exact h.minHash
  noted := fun htrue => absurd htrue hnotes

/-- The least hash is noted, if the design asks for it. -/
theorem SegmentBuffer.Copied.noteMin (hcopied : s.Copied d (cur ++ [c]) s')
    (h : s.Holds d heap cur) (hnotes : d.notesMin = true) :
    (s'.noteMin (chunkHashVal d.params c) (d.params.fingerprint c.1)).Holds d heap
      (cur ++ [c]) := by
  have hval : s'.minHashVal = (minOf d.params cur).1 :=
    hcopied.minHashVal.trans (h.minHashVal.trans (if_pos hnotes))
  obtain ⟨hcount, htotal, hbuffer, hmetadata, -, hsame⟩ := hcopied
  rw [SegmentBuffer.noteMin, hval]
  by_cases hlt : chunkHashVal d.params c < (minOf d.params cur).1
  · rw [if_pos hlt]
    refine ⟨hcount, htotal, hbuffer, hmetadata, ?_, Or.inr hnotes, fun _ _ => ?_⟩
    · rw [if_pos hnotes, minOf_concat, minStep, if_pos hlt]
    · rw [minOf_concat, minStep, if_pos hlt]
  · rw [if_neg hlt]
    have hne : cur ≠ [] := by
      rintro rfl
      exact hlt (convertHashToValue_lt _)
    refine ⟨hcount, htotal, hbuffer, hmetadata, ?_, Or.inr hnotes, fun _ _ => ?_⟩
    · rw [if_pos hnotes, minOf_concat, minStep, if_neg hlt]
      exact hval
    · rw [minOf_concat, minStep, if_neg hlt, hsame]
      exact h.noted hnotes hne

/-- **The chunk that is added.** -/
theorem SegmentBuffer.Holds.add (h : s.Holds d heap cur) (hopen : ¬ ClosesSegment d.params cur c) :
    ∃ s', s.add (d.params.fingerprint c.1) c.1 = .ok s' ∧
      (if d.notesMin then
        s'.noteMin (chunkHashVal d.params c) (d.params.fingerprint c.1) else s').Holds d heap
          (cur ++ [c]) := by
  obtain ⟨s', hadd, hcopied⟩ := h.copy hopen
  refine ⟨s', hadd, ?_⟩
  by_cases hnotes : d.notesMin = true
  · rw [if_pos hnotes]
    exact hcopied.noteMin h hnotes
  · rw [if_neg hnotes]
    exact hcopied.holds h hnotes

end Memory

/-! ## The loop -/

section Loop

variable {σ : Type} {d : SegmentDesign σ} {heap : SegmentHeap} {t : SegmentBuffer}
  {cur : List Chunk} {c : Chunk}

/-- The segment is processed. -/
def SegmentDesign.processPiece (d : SegmentDesign σ) (heap : SegmentHeap) (piece : List Chunk)
    (s : σ) : Except Fault σ :=
  d.processOneSegment (segmentOf d heap piece) s

theorem endSegment_eq (hne : cur ≠ []) (h : t.Holds d heap cur) (s : σ) :
    d.endSegment (s, t) = (d.processPiece heap cur s).map (·, t.reset) := by
  rw [SegmentDesign.endSegment, h.contents hne, SegmentDesign.processPiece]
  cases d.processOneSegment (segmentOf d heap cur) s with
  | error e => rfl
  | ok s' => rfl

/-- The segment ends before the chunk. -/
theorem processChunk_closes (hclose : ClosesSegment d.params cur c) (h : t.Holds d heap cur) :
    ∃ t', SegmentBuffer.Holds d heap [c] t' ∧
      ∀ s, d.processChunk (s, t) c.1 = (d.processPiece heap cur s).map (·, t') := by
  have hne : cur ≠ [] := by
    rintro rfl
    exact not_closesSegment_nil _ _ hclose
  have hend := h.isEnd_iff.mpr hclose
  obtain ⟨t', hadd, hheld⟩ := h.reset.add (not_closesSegment_nil d.params c)
  refine ⟨_, hheld, fun s => ?_⟩
  unfold chunkHashVal at hend
  simp only [SegmentDesign.processChunk, hend, if_true, endSegment_eq hne h]
  cases d.processPiece heap cur s with
  | error e => rfl
  | ok s' =>
      simp only [bind, Except.bind, pure, Except.pure, Except.map, hadd]
      rfl

/-- The segment goes on with the chunk. -/
theorem processChunk_open (hopen : ¬ ClosesSegment d.params cur c) (h : t.Holds d heap cur) :
    ∃ t', SegmentBuffer.Holds d heap (cur ++ [c]) t' ∧
      ∀ s, d.processChunk (s, t) c.1 = .ok (s, t') := by
  have hend := mt h.isEnd_iff.mp hopen
  obtain ⟨t', hadd, hheld⟩ := h.add hopen
  refine ⟨_, hheld, fun s => ?_⟩
  unfold chunkHashVal at hend
  simp only [SegmentDesign.processChunk, hend, bind, Except.bind, pure, Except.pure, hadd]
  rfl

/-- **Any chunks.** -/
theorem processChunks_consumed (d : SegmentDesign σ) (heap : SegmentHeap) (s : σ)
    (chunks : List Chunk) :
    Splits.Consumed (ClosesSegment d.params) (d.processPiece heap)
      (fun t cur => SegmentBuffer.Holds d heap cur t) s chunks
      (chunks.foldlM (fun s c => d.processChunk s c.1) (s, SegmentBuffer.init heap)) := by
  have hstart := SegmentBuffer.holds_init d heap
  generalize SegmentBuffer.init heap = t at hstart
  exact Splits.consumed_foldlM (d.processPiece heap) (fun t cur => SegmentBuffer.Holds d heap cur t)
    hstart (fun _ _ _ hclose h => processChunk_closes hclose h)
    (fun _ _ _ hopen h => processChunk_open hopen h) chunks

/-! ## Batches -/

/-- The message has these chunks: its header counts them and the bytes of their frames, which
are encrypted. -/
structure Delivers (p : Params) (sessionKey : Bytes) (m : FramedMsg) (chunks : List Chunk) :
    Prop where
  currentItemNum : m.currentItemNum.toNat = chunks.length
  dataSize : m.dataSize.toNat = (frames (chunks.map Subtype.val)).length
  data : m.data.take m.dataSize.toNat =
    p.crypto.sessionKeyEnc sessionKey (frames (chunks.map Subtype.val))

/-- They are found in it, whatever stands behind them. -/
theorem Delivers.framedChunks {p : Params} {sessionKey : Bytes} {m : FramedMsg}
    {chunks : List Chunk} (h : Delivers p sessionKey m chunks) (stale : Nat → UInt8) :
    framedChunks p sessionKey stale m = chunks.map Subtype.val := by
  have hlt : (frames (chunks.map Subtype.val)).length < 2 ^ 32 := by
    rw [← h.dataSize]
    exact m.dataSize.toNat_lt
  have hsmall : ∀ chunk ∈ chunks.map Subtype.val, chunk.length < 2 ^ 32 := fun chunk hchunk =>
    Nat.lt_of_le_of_lt (length_le_frames hchunk) hlt
  have hfits := fits_frames _ hsmall []
  have hnum : m.currentItemNum.toNat = (chunks.map Subtype.val).length := by
    rw [h.currentItemNum, List.length_map]
  rw [List.append_nil] at hfits
  unfold Debe.framedChunks
  dsimp only
  rw [h.data, p.crypto.sessionKeyDec_sessionKeyEnc, hnum,
    parseChunks_bytes hlt (Nat.zero_le _) hfits, List.drop_zero]
  exact readRecords_frames _ hsmall

/-- Batch boundaries do not matter. -/
theorem processBatches_eq {sessionKey : Bytes} {msgs : List ((Nat → UInt8) × FramedMsg)}
    {batches : List (List Chunk)}
    (h : List.Forall₂ (fun m batch => Delivers d.params sessionKey m.2 batch) msgs batches)
    (s : σ × SegmentBuffer) :
    d.processBatches sessionKey msgs s =
      batches.flatten.foldlM (fun s c => d.processChunk s c.1) s := by
  induction h generalizing s with
  | nil => rfl
  | @cons m batch msgs batches hm _ ih =>
      rw [List.flatten_cons, List.foldlM_append]
      simp only [SegmentDesign.processBatches] at ih ⊢
      rw [List.foldlM_cons, SegmentDesign.processOneBatch, hm.framedChunks, List.foldlM_map]
      congr 1
      funext s'
      exact ih s'

/-- The segments of a stream of chunks. -/
def segmentPieces (p : Params) (chunks : List Chunk) : List (List Chunk) :=
  Splits.pieces (ClosesSegment p) chunks

/-- **`ProcessTailBatch`** processes the open segment. -/
theorem upload_eq {sessionKey : Bytes} {msgs : List ((Nat → UInt8) × FramedMsg)}
    {batches : List (List Chunk)}
    (h : List.Forall₂ (fun m batch => Delivers d.params sessionKey m.2 batch) msgs batches)
    (heap : SegmentHeap) (s : σ) :
    ∃ t : SegmentBuffer, t.Holds d heap [] ∧ d.upload sessionKey msgs (s, .init heap) =
      ((segmentPieces d.params batches.flatten).foldlM
        (fun s piece => d.processPiece heap piece s) s).map
        fun s => (d.processTail s, t) := by
  obtain ⟨t, hheld, hrun⟩ := processChunks_consumed d heap s batches.flatten
  rw [SegmentDesign.upload, processBatches_eq h, hrun, segmentPieces, Splits.pieces]
  have hnum := hheld.chunkNum
  by_cases hcur : (Splits.run (ClosesSegment d.params) batches.flatten).current = []
  · have hzero : ¬ t.chunkNum ≠ 0 := by
      rw [hcur, List.length_nil] at hnum
      exact not_not.mpr (UInt32.toNat_inj.mp hnum)
    rw [hcur] at hheld
    refine ⟨t, hheld, ?_⟩
    rw [hcur, List.isEmpty_nil, if_pos rfl, List.append_nil]
    cases (Splits.run (ClosesSegment d.params) batches.flatten).closed.foldlM
      (fun s piece => d.processPiece heap piece s) s with
    | error e => rfl
    | ok s₁ =>
        change d.processTailBatch (s₁, t) = _
        rw [SegmentDesign.processTailBatch, if_neg hzero]
        rfl
  · have hsome : t.chunkNum ≠ 0 := by
      intro hzero
      rw [hzero] at hnum
      exact hcur (List.length_eq_zero_iff.mp hnum.symm)
    have hne : ¬ (Splits.run (ClosesSegment d.params) batches.flatten).current.isEmpty := by
      rwa [List.isEmpty_iff]
    refine ⟨t.reset, hheld.reset, ?_⟩
    rw [if_neg hne, List.foldlM_append]
    cases (Splits.run (ClosesSegment d.params) batches.flatten).closed.foldlM
      (fun s piece => d.processPiece heap piece s) s with
    | error e => rfl
    | ok s₁ =>
        change d.processTailBatch (s₁, t) = (d.processPiece heap _ s₁ >>= _).map _
        rw [SegmentDesign.processTailBatch, if_pos hsome, endSegment_eq hcur hheld]
        cases d.processPiece heap _ s₁ with
        | error e => rfl
        | ok s₂ => rfl

/-! ## The segments -/

/-- Each record is that of its chunk, which is found behind the bytes that the records before it
count. -/
theorem segmentOf_record (d : SegmentDesign σ) (heap : SegmentHeap) (pre : List Chunk) (c : Chunk)
    (post : List Chunk) :
    (segmentOf d heap (pre ++ c :: post)).metadata[pre.length]? = some (chunkMeta d.params c.1) ∧
      Buffer.read (segmentOf d heap (pre ++ c :: post)).buffer
        (((segmentOf d heap (pre ++ c :: post)).metadata.take pre.length).map
          fun m => m.chunkSize.toNat).sum c.1.length = some c.1 := by
  have hlen : (chunkMetas d.params pre).length = pre.length := List.length_map _
  have hmetas : chunkMetas d.params (pre ++ c :: post) =
      chunkMetas d.params pre ++ chunkMeta d.params c.1 :: chunkMetas d.params post := by
    rw [chunkMetas, List.map_append, List.map_cons]
    rfl
  have hsum : ((chunkMetas d.params pre).map fun m => m.chunkSize.toNat).sum =
      (chunkBytes pre).length := by
    rw [chunkMetas, List.map_map, chunkBytes, List.length_flatMap]
    exact congrArg List.sum (List.map_congr_left fun c _ => toNat_chunkSize c)
  unfold segmentOf
  dsimp only
  rw [hmetas]
  refine ⟨?_, ?_⟩
  · rw [List.getElem?_append_right hlen.le, hlen, Nat.sub_self]
    rfl
  · rw [List.take_left' hlen, hsum, chunkBytes, List.flatMap_append, List.flatMap_cons]
    exact Buffer.read_mid _ _ _

/-- What is right about the segment of some chunks. -/
structure SegmentRight (d : SegmentDesign σ) (heap : SegmentHeap) (piece : List Chunk) : Prop where
  nonempty : piece ≠ []
  chunkNum : piece.length ≤ maxSegmentChunkNum
  segmentSize : (chunkBytes piece).length ≤ maxSegmentSize.toNat
  holds : (segmentOf d heap piece).Holds d.params piece
  offsets : ∀ pre c post, piece = pre ++ c :: post →
    (segmentOf d heap piece).metadata[pre.length]? = some (chunkMeta d.params c.1) ∧
      Buffer.read (segmentOf d heap piece).buffer
        (((segmentOf d heap piece).metadata.take pre.length).map
          fun m => m.chunkSize.toNat).sum c.1.length = some c.1
  minHash : d.notesMin = true →
    ∃ pre c post, FirstMin d.params piece (segmentOf d heap piece).minHash pre c post

theorem SegmentBuilt.right {piece : List Chunk} (h : SegmentBuilt d.params piece) :
    SegmentRight d heap piece where
  nonempty := h.ne_nil
  chunkNum := h.sizes.2.1
  segmentSize := h.sizes.2.2
  holds := ⟨rfl, rfl⟩
  offsets := by
    rintro pre c post rfl
    exact segmentOf_record d heap pre c post
  minHash := fun hnotes => by
    obtain ⟨pre, c, post, hfirst, -⟩ := minOf_spec d.params h.ne_nil
    have hmin : (segmentOf d heap piece).minHash = (minOf d.params piece).2 := if_pos hnotes
    exact ⟨pre, c, post, hmin ▸ hfirst⟩

/-- What an upload in some batches does: the segments of the stream, which are right, are
processed one after the other, and between two batches, wherever they end, the segment in memory
is that of the chunks that are left. -/
structure Segmented (d : SegmentDesign σ) (sessionKey : Bytes) (heap : SegmentHeap) (s : σ)
    (msgs : List ((Nat → UInt8) × FramedMsg)) (chunks : List Chunk) : Prop where
  flatten : (segmentPieces d.params chunks).flatten = chunks
  right : ∀ piece ∈ segmentPieces d.params chunks, SegmentRight d heap piece
  moment : ∃ (t : SegmentBuffer) (closed : List (List Chunk)) (current : List Chunk),
    d.processBatches sessionKey msgs (s, .init heap) =
      (closed.foldlM (fun s piece => d.processOneSegment (segmentOf d heap piece) s) s).map
        (·, t) ∧
    closed.flatten ++ current = chunks ∧ t.Holds d heap current ∧
    t.chunkNum.toNat ≤ maxSegmentChunkNum ∧ t.segmentSize.toNat ≤ maxSegmentSize.toNat
  upload : ∃ t : SegmentBuffer, t.Holds d heap [] ∧ d.upload sessionKey msgs (s, .init heap) =
    ((segmentPieces d.params chunks).foldlM
      (fun s piece => d.processOneSegment (segmentOf d heap piece) s) s).map
      fun s => (d.processTail s, t)

/-- **Every design with segments.** -/
theorem segmented {sessionKey : Bytes} {msgs : List ((Nat → UInt8) × FramedMsg)}
    {batches : List (List Chunk)}
    (h : List.Forall₂ (fun m batch => Delivers d.params sessionKey m.2 batch) msgs batches)
    (heap : SegmentHeap) (s : σ) :
    Segmented d sessionKey heap s msgs batches.flatten where
  flatten := Splits.flatten_pieces _
  right := fun piece hpiece =>
    SegmentBuilt.right (Splits.built_pieces (not_closesSegment_nil d.params) _ piece hpiece)
  moment := by
    obtain ⟨t, hheld, hrun⟩ := processChunks_consumed d heap s batches.flatten
    obtain ⟨hnum, hsize⟩ := hheld.bounds
    exact ⟨t, _, _, (processBatches_eq h _).trans hrun, Splits.flatten_run _, hheld, hnum, hsize⟩
  upload := upload_eq h heap s

end Loop

/-- **Segmentation.**  In both designs the segments that are processed are those of the stream
of chunks, whatever batches it comes in, and they are right. -/
theorem segmentation (p : SparseParams) (sessionKey : Bytes) (heap : SegmentHeap)
    (extreme : ExtremeServer) (sparse : SparseServer) (msgs : List ((Nat → UInt8) × FramedMsg))
    (batches : List (List Chunk))
    (h : List.Forall₂ (fun m batch => Delivers p.toParams sessionKey m.2 batch) msgs batches) :
    Segmented (extremeDesign p.toSegmentParams) sessionKey heap extreme msgs batches.flatten ∧
      Segmented (sparseDesign p) sessionKey heap sparse msgs batches.flatten :=
  ⟨segmented h heap extreme, segmented h heap sparse⟩

theorem delivers_batchMsg (p : Params) (sessionKey : Bytes) {chunks : List Chunk}
    (h : (frames (chunks.map Subtype.val)).length < 2 ^ 32) :
    Delivers p sessionKey
      (batchMsg p sessionKey .clientUploadChunk (chunks.map Subtype.val)) chunks := by
  have hcount := FrameBuffer.four_mul_length_le (chunks.map Subtype.val)
  have hsize : (UInt32.ofNat (frames (chunks.map Subtype.val)).length).toNat =
      (frames (chunks.map Subtype.val)).length := UInt32.toNat_ofNat_of_lt' h
  rw [List.length_map] at hcount
  refine ⟨?_, hsize, ?_⟩
  · rw [batchMsg, List.length_map]
    exact UInt32.toNat_ofNat_of_lt' (show chunks.length < 2 ^ 32 by omega)
  · rw [batchMsg, hsize]
    exact List.take_of_length_le (p.crypto.length_sessionKeyEnc _ _).le

/-- Two batches in a small configuration. -/
theorem segmentation_small :
    ∃ msgs : List ((Nat → UInt8) × FramedMsg),
      Segmented (extremeDesign smallSparseParams.toSegmentParams) [3]
        ⟨ChunkHash.ofBytes [], fun _ => 0, fun _ => chunkMeta smallParams []⟩
        (ExtremeServer.init ∅ smallUpload) msgs
        [⟨[7, 8], by decide⟩, ⟨[9], by decide⟩, ⟨[7, 8], by decide⟩] ∧
      Segmented (sparseDesign smallSparseParams) [3]
        ⟨ChunkHash.ofBytes [], fun _ => 0, fun _ => chunkMeta smallParams []⟩
        (SparseServer.init ∅ smallUpload) msgs
        [⟨[7, 8], by decide⟩, ⟨[9], by decide⟩, ⟨[7, 8], by decide⟩] :=
  ⟨_, segmentation smallSparseParams [3] _ _ _
    [(fun _ => 1, _), (fun _ => 2, _)]
    [[⟨[7, 8], by decide⟩, ⟨[9], by decide⟩], [⟨[7, 8], by decide⟩]]
    (.cons (delivers_batchMsg smallSparseParams.toParams [3] (by decide))
      (.cons (delivers_batchMsg smallSparseParams.toParams [3] (by decide)) .nil))⟩

end Debe
