import Debe.Restart

/-!
# Maps in sealed files

The in-enclave index and the hook index of sparse indexing are sealed as a whole and
loaded by the next start, in the same process or in a new one.  The in-enclave index goes
through a buffer of one batch on both sides, and the two batch sizes are configured
independently; the hook index is a nested table without a count in front, and its reader
stops only when it stands exactly at the end.

The size of the batch buffer is a product of a `uint64_t`, so the functions of
`EcallInEnclaveIndex` are given here once more with that product as the machine computes it.
-/

namespace Debe

open LittleEndian Sealed

/-! ## The in-enclave index -/

namespace EcallInEnclaveIndex

/-- `maxBufferSize`. -/
def maxBufferSize (sendChunkBatchSize : UInt64) : Nat := (sendChunkBatchSize * 48).toNat

/-- `EcallInEnclaveIndex::PersistDedupIndex`. -/
def persistDedupIndex (junk : Nat → UInt8) (sendChunkBatchSize : UInt64) (m : InsideIndex)
    (s : Sealed) : Except Fault Sealed := do
  let s ← openOrExit .baselineIndex "EcallInEnclaveIndex: cannot init the index sealed file." s
  let maxBufferSize := maxBufferSize sendChunkBatchSize
  let s := writeBufferToFile (encode 8 m.entries.length) s
  let r ← m.entries.foldlM (packInside maxBufferSize) ((malloc junk maxBufferSize, 0), s)
  let s := if r.1.2 ≠ 0 then writeBufferToFile (r.1.1.take r.1.2) r.2 else r.2
  return ocallCloseWriteSealedFile s

/-- The loop body over the whole batches, of `n` items each. -/
def loadBatch (maxBufferSize n : Nat) (st : Bytes × InsideIndex × Sealed) :
    Except Fault (Bytes × InsideIndex × Sealed) := do
  let r ← readFileToBuffer st.1 maxBufferSize st.2.2
  let m ← insertItems r.1 0 n st.2.1
  return (r.1, m, r.2)

/-- `EcallInEnclaveIndex::LoadDedupIndex` on an empty index. -/
def loadDedupIndex (junk : Nat → UInt8) (sendChunkBatchSize : UInt64) (s : Sealed) :
    Except Fault (InsideIndex × Sealed) := do
  let opened := ocallInitReadSealedFile .baselineIndex s
  if opened.1 = 0 then return (∅, opened.2)
  let head ← readFileToBuffer (malloc junk 8) 8 opened.2
  let itemNum := decode head.1
  let maxBufferSize := maxBufferSize sendChunkBatchSize
  let expectReadBatchNum := itemNum / sendChunkBatchSize.toNat
  let r ← (List.range expectReadBatchNum).foldlM
    (fun st _ => loadBatch maxBufferSize sendChunkBatchSize.toNat st)
    (malloc junk maxBufferSize, ∅, head.2)
  let remainItemNum := itemNum - r.2.1.entries.length
  let q ← loadRemaining maxBufferSize remainItemNum r.1 r.2.1 r.2.2
  let s := ocallCloseReadSealedFile q.2
  if q.1.entries.length ≠ itemNum then
    ocallSGXExitError "EcallInEnclaveIndex: load the index error."
  else return (q.1, s)

variable {b : UInt64}

/-- A product that fits `size_t`. -/
theorem maxBufferSize_eq (hb : b.toNat * insideItemSize < 2 ^ 64) :
    maxBufferSize b = b.toNat * insideItemSize := by
  have hmul : maxBufferSize b = b.toNat * 48 % 2 ^ 64 := UInt64.toNat_mul b 48
  rw [hmul]
  exact Nat.mod_eq_of_lt hb

theorem persistDedupIndex_eq (hb : b.toNat * insideItemSize < 2 ^ 64) (junk : Nat → UInt8)
    (m : InsideIndex) (s : Sealed) :
    persistDedupIndex junk b m s = persistInsideIndex junk b.toNat m s := by
  rw [persistDedupIndex, maxBufferSize_eq hb]
  rfl

theorem loadDedupIndex_eq (hb : b.toNat * insideItemSize < 2 ^ 64) (junk : Nat → UInt8)
    (s : Sealed) : loadDedupIndex junk b s = loadInsideIndex junk b.toNat s := by
  rw [loadDedupIndex, maxBufferSize_eq hb]
  rfl

end EcallInEnclaveIndex

open EcallInEnclaveIndex

/-- With these batch sizes every index is written and, by the next start, loaded as it was;
no copy leaves its buffer and no exit is taken. -/
def InsideIndexPersists (b₁ b₂ : UInt64) : Prop :=
  ∀ (m : InsideIndex) (s : Sealed) (junk junk' : Nat → UInt8) (newProcess : Bool),
    (∀ e ∈ m.entries, e.1.length = chunkHashSize ∧ e.2.length = recipeEntrySize) →
    m.entries.length < 2 ^ 64 → Closed s →
    ∃ written m' s', persistDedupIndex junk b₁ m s = .ok written ∧
      loadDedupIndex junk' b₂ (if newProcess then written.newProcess else written) =
        .ok (m', s') ∧
      ∀ k, m'.lookup k = m.lookup k

/-- Loading the entries of a map in any order gives the map. -/
theorem lookup_rebuild_entries {β : Type} (m : AList fun _ : Bytes => β) (k : Bytes) :
    (rebuild m.entries ∅).lookup k = m.lookup k := lookup_rebuild m.nodupKeys k

/-- **The in-enclave index over a restart**, for any two batch sizes whose buffers have a
size that `size_t` holds. -/
theorem inside_index_persistence {b₁ b₂ : UInt64} (h₁ : 1 ≤ b₁) (h₂ : 1 ≤ b₂)
    (hsize₁ : b₁.toNat * insideItemSize < 2 ^ 64) (hsize₂ : b₂.toNat * insideItemSize < 2 ^ 64) :
    InsideIndexPersists b₁ b₂ := by
  intro m s junk junk' newProcess hsizes hcount hs
  have hm : m.Sealable := ⟨hsizes, hcount⟩
  let written := s.put .baselineIndex (insideImages m.entries)
  have hput : Closed written := hs.put _ _
  obtain ⟨st, hload, -⟩ := loadInsideIndex_eq hm (hput.start newProcess)
    (by rw [start_files]; exact put_files_self _ _ _) junk' (UInt64.le_iff_toNat_le.mp h₂)
  refine ⟨written, _, _, ?_, (loadDedupIndex_eq hsize₂ junk' _).trans hload,
    lookup_rebuild_entries m⟩
  rw [persistDedupIndex_eq hsize₁]
  exact persistInsideIndex_eq hm hs junk (UInt64.le_iff_toNat_le.mp h₁)

/-- One chunk inside the enclave. -/
def oneInside : InsideIndex :=
  (∅ : InsideIndex).insert (List.replicate chunkHashSize 7) (List.replicate recipeEntrySize 9)

theorem oneInside_sizes : ∀ e ∈ oneInside.entries,
    e.1.length = chunkHashSize ∧ e.2.length = recipeEntrySize := by
  decide

/-- Written one by one and read in threes. -/
theorem inside_index_persistence_small : ∃ written m' s',
    persistDedupIndex (fun _ => 0) 1 oneInside .init = .ok written ∧
      loadDedupIndex (fun _ => 0) 3 written.newProcess = .ok (m', s') ∧
      ∀ k, m'.lookup k = oneInside.lookup k :=
  inside_index_persistence (UInt64.le_refl 1) (by decide : (1 : UInt64) ≤ 3) (by decide)
    (by decide) oneInside .init (fun _ => 0) (fun _ => 0) true oneInside_sizes (by decide)
    closed_init

/-- With 2⁶⁰ chunks in a batch the size of the buffer wraps to zero, and the first copy
leaves it. -/
theorem inside_index_batch_overflow :
    ¬ ∀ b₁ b₂ : UInt64, 1 ≤ b₁ → 1 ≤ b₂ → InsideIndexPersists b₁ b₂ := by
  intro h
  obtain ⟨written, -, -, hpersist, -⟩ := h 1152921504606846976 1 (by decide) (by decide)
    oneInside .init (fun _ => 0) (fun _ => 0) true oneInside_sizes (by decide) closed_init
  have hfault : persistDedupIndex (fun _ => 0) 1152921504606846976 oneInside .init =
      .error .outOfRange := rfl
  rw [hfault] at hpersist
  cases hpersist

/-! ## The hook index -/

/-- Of an empty index an empty file is left, and nothing is loaded. -/
theorem loadHookIndex_empty {s : Sealed} (hs : Closed s) (hf : s.files .sparseIndex = some [])
    (junk : Nat → UInt8) : loadHookIndex junk s = .ok (∅, s.reading (.opened [])) := by
  simp only [loadHookIndex, ocallInitReadSealedFile_some hs hf, List.length_nil, if_true]
  rfl

/-- **The hook index over a restart.**  Below 2³² bytes every index is loaded as it was,
the hooks with their lists in order: the parse loop stands exactly behind each hook it has
taken, stops behind the last one, and reads nothing outside the file. -/
theorem hook_index_persistence {m : HookIndex}
    (hkeys : ∀ e ∈ m.entries, e.1.length = chunkHashSize)
    (hids : ∀ e ∈ m.entries, ∀ id ∈ e.2, id.length = segmentIDLength)
    (hsmall : (hookImages m.entries).length < 2 ^ 32) {s : Sealed} (hs : Closed s)
    (junk junk' : Nat → UInt8) (newProcess : Bool) :
    ∃ written m' s', persistHookIndex junk m s = .ok written ∧
      written.files .sparseIndex = some (hookImages m.entries) ∧
      loadHookIndex junk' (if newProcess then written.newProcess else written) = .ok (m', s') ∧
      ∀ k, m'.lookup k = m.lookup k := by
  have hm : m.Sealable := ⟨hkeys, hids, hsmall⟩
  let written := s.put .sparseIndex (hookImages m.entries)
  have hput : Closed written := hs.put _ _
  have hfile : (if newProcess then written.newProcess else written).files .sparseIndex =
      some (hookImages m.entries) := by
    rw [start_files]
    exact put_files_self _ _ _
  by_cases hne : m.entries = []
  · have hload := loadHookIndex_empty (hput.start newProcess) (by rw [hfile, hne]; rfl) junk'
    refine ⟨written, ∅, _, persistHookIndex_eq hm hs junk, put_files_self _ _ _, hload,
      fun k => ?_⟩
    rw [← lookup_rebuild_entries m, hne]
    rfl
  · obtain ⟨st, hload, -⟩ := loadHookIndex_eq hm hne (hput.start newProcess) hfile junk'
    exact ⟨written, _, _, persistHookIndex_eq hm hs junk, put_files_self _ _ _, hload,
      lookup_rebuild_entries m⟩

/-- A hook with two manifests and one without. -/
def twoHooks : HookIndex :=
  ((∅ : HookIndex).insert (List.replicate chunkHashSize 1) []).insert
    (List.replicate chunkHashSize 2)
    [List.replicate segmentIDLength 3, List.replicate segmentIDLength 4]

theorem hook_index_persistence_small : ∃ written m' s',
    persistHookIndex (fun _ => 0) twoHooks .init = .ok written ∧
      written.files .sparseIndex = some (hookImages twoHooks.entries) ∧
      loadHookIndex (fun _ => 0) written.newProcess = .ok (m', s') ∧
      ∀ k, m'.lookup k = twoHooks.lookup k :=
  hook_index_persistence (by decide) (by decide) (by decide) closed_init (fun _ => 0)
    (fun _ => 0) true

end Debe
