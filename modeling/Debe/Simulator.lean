import Debe.NaiveIndex

/-!
# The simulator

The security evaluation runs `FreqIndex::ProcessBatchFp` of the simulator over traces of
fingerprints in place of the enclave's `ProcessOneBatch`.  The two were written
separately.  The simulator counts and classifies in one loop, takes the least frequency
of a heap that is not full, updates a member of the heap without asking
`CheckIfAddToHeap`, and reads frequencies from its own map `tmpIndex`.

They agree because a heap never holds more than the sketch's estimate of a fingerprint.
Estimates only grow while no counter wraps, so a member of the heap passes every
comparison with the least frequency.  `Agree` is that invariant between two batches.

The programs take the row positions of the sketch from different hash functions, so the
positions are a parameter here, the same for both.
-/

namespace Debe

/-- `ChunkInfo`. -/
structure ChunkInfo where
  fpStr : Bytes
  chunkSize : Nat
  deriving DecidableEq, Repr

/-- `ChunkStatus`. -/
structure ChunkStatus where
  freq : Nat
  offset : Nat
  deriving DecidableEq, Repr

/-- What a batch shows: the status of every position, the fingerprints asked for
outside in their order, and the heap after the batch. -/
structure IndexTrace where
  statuses : List (Option DedupFlag)
  queries : List Bytes
  heap : List (Bytes × Nat)
  deriving DecidableEq, Repr

namespace Sim

/-- The members of the simulator's `FreqIndex` that `ProcessBatchFp` uses. -/
structure FreqIndex where
  k : Nat
  cmSketch : CMSketch
  newMinHeap : EntryHeap
  insideDedupChunkNum : Nat
  insideDedupDataSize : Nat
  replaceHappensTime : Nat

/-- The constructor, with `width_` and `depth_`. -/
def FreqIndex.init (k : Nat) : FreqIndex where
  k := k
  cmSketch := .init (256 * 1024) 4
  newMinHeap := .empty
  insideDedupChunkNum := 0
  insideDedupDataSize := 0
  replaceHappensTime := 0

/-! ## `ProcessBatchFp` -/

/-- The first loop in mid-run. -/
structure Scan where
  cmSketch : CMSketch
  tmpIndex : AList (fun _ : Bytes => ChunkStatus)
  dedupStatusRecord : List DedupFlag

/-- A fingerprint that is new in the batch. -/
def Scan.enter (s : Scan) (chunkFp : Bytes) (currentFreq : Nat) (status : DedupFlag) : Scan :=
  { s with
    tmpIndex := s.tmpIndex.insert chunkFp
      { freq := currentFreq, offset := s.dedupStatusRecord.length }
    dedupStatusRecord := s.dedupStatusRecord ++ [status] }

/-- A fingerprint that occurred before in the batch. -/
def Scan.again (s : Scan) (chunkFp : Bytes) (localFindResult : ChunkStatus) (currentFreq : Nat)
    (status : DedupFlag) : Scan :=
  { s with
    tmpIndex := s.tmpIndex.insert chunkFp { localFindResult with freq := currentFreq }
    dedupStatusRecord := s.dedupStatusRecord ++ [status] }

/-- The body of the first loop. -/
def scanStep (rowPos : Bytes → Nat → Nat) (newMinHeap : EntryHeap) (currentMinFreq : Nat)
    (s : Scan) (c : ChunkInfo) : Except Fault Scan :=
  let cmSketch := s.cmSketch.updateAt rowPos c.fpStr 1
  let currentFreq := cmSketch.estimateAt rowPos c.fpStr
  let s := { s with cmSketch := cmSketch }
  match s.tmpIndex.lookup c.fpStr with
  | some localFindResult =>
      match s.dedupStatusRecord[localFindResult.offset]? with
      | some .unique => .ok (s.again c.fpStr localFindResult currentFreq .tmpUnique)
      | some .duplicate => .ok (s.again c.fpStr localFindResult currentFreq .tmpDuplicate)
      | some _ => .error (.exitError "wrong dedup flag.\n")
      | none => .error .outOfRange
  | none =>
      if currentFreq < currentMinFreq then .ok (s.enter c.fpStr currentFreq .unique)
      else if newMinHeap.contains c.fpStr then .ok (s.enter c.fpStr currentFreq .duplicate)
      else .ok (s.enter c.fpStr currentFreq .unique)

/-- `currentMinFreq`: the least frequency of a heap that is not empty, else zero. -/
def currentMinFreq (newMinHeap : EntryHeap) : Except Fault Nat :=
  if newMinHeap.size ≠ 0 then inRange newMinHeap.topEntry else .ok 0

/-- The chunks that `CountChunkFreq` counts as sent outside. -/
def outsideQueries (fpBatchBuffer : List ChunkInfo) (dedupStatusRecord : List DedupFlag) :
    List ChunkInfo :=
  ((fpBatchBuffer.zip dedupStatusRecord).filter fun x => x.2 = .unique).map Prod.fst

/-- A new `HeapItem_t`.  The simulator's has no address. -/
def newItem (currentFreq : Nat) : HeapItem where
  address := RecipeEntry.ofBytes []
  chunkFreq := currentFreq
  idx := 0

/-- What the cases `DUPLICATE` and `UNIQUE` of the last loop do to the heap. -/
def placeInHeap (idx : FreqIndex) (fp : Bytes) (currentFreq : Nat) : Except Fault FreqIndex :=
  if idx.newMinHeap.contains fp then do
    let heap ← inRange (idx.newMinHeap.update fp currentFreq)
    return { idx with newMinHeap := heap }
  else if idx.newMinHeap.size = idx.k then do
    let heapMinFreq ← inRange idx.newMinHeap.topEntry
    if heapMinFreq ≤ currentFreq then
      let heap ← inRange idx.newMinHeap.pop
      let heap ← inRange (heap.add fp (newItem currentFreq))
      return { idx with
        newMinHeap := heap
        replaceHappensTime := idx.replaceHappensTime + 1 }
    else return idx
  else do
    let heap ← inRange (idx.newMinHeap.add fp (newItem currentFreq))
    return { idx with newMinHeap := heap }

/-- A chunk found inside. -/
def FreqIndex.countInside (idx : FreqIndex) (chunkSize : Nat) : FreqIndex :=
  { idx with
    insideDedupChunkNum := idx.insideDedupChunkNum + 1
    insideDedupDataSize := idx.insideDedupDataSize + chunkSize }

/-- The body of the last loop. -/
def updateStep (tmpIndex : AList (fun _ : Bytes => ChunkStatus)) (idx : FreqIndex)
    (x : ChunkInfo × DedupFlag) : Except Fault FreqIndex :=
  let currentFreq := ((tmpIndex.lookup x.1.fpStr).map ChunkStatus.freq).getD 0
  match x.2 with
  | .duplicate => do
      let idx ← placeInHeap idx x.1.fpStr currentFreq
      return idx.countInside x.1.chunkSize
  | .tmpDuplicate => .ok (idx.countInside x.1.chunkSize)
  | .unique => placeInHeap idx x.1.fpStr currentFreq
  | .tmpUnique => .ok (idx.countInside x.1.chunkSize)

/-- `ProcessBatchFp`, with what the batch shows. -/
def processBatchFp (rowPos : Bytes → Nat → Nat) (idx : FreqIndex)
    (fpBatchBuffer : List ChunkInfo) : Except Fault (FreqIndex × IndexTrace) := do
  let minFreq ← currentMinFreq idx.newMinHeap
  let s ← fpBatchBuffer.foldlM (scanStep rowPos idx.newMinHeap minFreq)
    { cmSketch := idx.cmSketch, tmpIndex := ∅, dedupStatusRecord := [] }
  let idx' ← (fpBatchBuffer.zip s.dedupStatusRecord).foldlM (updateStep s.tmpIndex)
    { idx with cmSketch := s.cmSketch }
  return (idx', {
    statuses := s.dedupStatusRecord.map some
    queries := (outsideQueries fpBatchBuffer s.dedupStatusRecord).map ChunkInfo.fpStr
    heap := idx'.newMinHeap.layout })

/-- Batch after batch, collecting what each shows. -/
def run (rowPos : Bytes → Nat → Nat) (s : FreqIndex × List IndexTrace)
    (batches : List (List ChunkInfo)) : Except Fault (FreqIndex × List IndexTrace) :=
  batches.foldlM (fun s batch => do
    let r ← processBatchFp rowPos s.1 batch
    return (r.1, s.2 ++ [r.2])) s

end Sim

/-! ## The enclave on the same fingerprints -/

/-- What a batch of the enclave shows.  The queries are ciphertexts. -/
def indexTrace (idx : FreqIndex) (looked : LookupState) : IndexTrace where
  statuses := looked.done.map InQueryEntry.dedupFlag
  queries := looked.outQuery.map OutQueryEntry.chunkHash
  heap := idx.insideDedupIndex.layout

/-- One client's batches, collecting what each shows. -/
def tracedRun (rowPos : Bytes → Nat → Nat) {p : Params}
    (s : (FreqIndex × OutIndex × Upload) × List IndexTrace) (batches : List (Batch p)) :
    Except Fault ((FreqIndex × OutIndex × Upload) × List IndexTrace) :=
  batches.foldlM (fun s b => do
    let r ← processOneBatchAt rowPos p s.1.1 s.1.2.1 (b.msg s.1.2.2.client.sessionKey) s.1.2.2
    return (r.1, s.2 ++ [indexTrace r.1.1 r.2])) s

/-- A batch as the simulator reads it. -/
def Batch.infos {p : Params} (b : Batch p) : List ChunkInfo :=
  b.data.map fun chunk => { fpStr := p.crypto.generateHash chunk, chunkSize := chunk.length }

/-- The fingerprints of a batch. -/
def Batch.fingerprints {p : Params} (b : Batch p) : List Bytes := b.data.map p.crypto.generateHash

/-- The simulator asks for fingerprints, the enclave for their ciphertexts. -/
def IndexTrace.encrypted (p : Params) (t : IndexTrace) : IndexTrace :=
  { t with queries := t.queries.map (p.crypto.indexAESCMCEnc p.indexQueryKey) }

/-! ## The two lookup loops -/

namespace Sim

variable {rowPos : Bytes → Nat → Nat} {p : Params} {seen : List Bytes} {heap : EntryHeap}

/-- The heap holds no more than the sketch estimates. -/
def Bounded (rowPos : Bytes → Nat → Nat) (heap : EntryHeap) (sketch : CMSketch) : Prop :=
  ∀ fp f a, heap.entry fp = some (f, a) → f ≤ sketch.estimateAt rowPos fp

/-- A threshold that no member of the heap is below. -/
def Floor (heap : EntryHeap) (freq : Nat) : Prop :=
  ∀ fp f a, heap.entry fp = some (f, a) → freq ≤ f

/-- The simulator's first loop and the enclave's lookup loop after the fingerprints
`seen`: the same statuses, the same positions in the two batch indexes, and at those
positions the same frequencies.  They lie between the heap and the sketch. -/
structure Scanned (rowPos : Bytes → Nat → Nat) (heap : EntryHeap) (seen : List Bytes) (s : Scan)
    (t : LookupState) : Prop where
  statuses : t.done.map InQueryEntry.dedupFlag = s.dedupStatusRecord.map some
  offsets : ∀ fp, t.localIndex.lookup fp = (s.tmpIndex.lookup fp).map ChunkStatus.offset
  found : ∀ fp st, s.tmpIndex.lookup fp = some st →
    ∃ e, t.done[st.offset]? = some e ∧ e.chunkHash = fp ∧ e.chunkFreq = st.freq
  counts : CMSketch.Counts rowPos seen s.cmSketch
  bounded : Bounded rowPos heap s.cmSketch
  lower : ∀ fp st f a, s.tmpIndex.lookup fp = some st → heap.entry fp = some (f, a) → f ≤ st.freq
  upper : ∀ fp st, s.tmpIndex.lookup fp = some st → st.freq ≤ s.cmSketch.estimateAt rowPos fp

theorem Scanned.length {s : Scan} {t : LookupState} (h : Scanned rowPos heap seen s t) :
    s.dedupStatusRecord.length = t.done.length := by
  have hlen := congrArg List.length h.statuses
  rw [List.length_map, List.length_map] at hlen
  exact hlen.symm

/-- Counting a fingerprint raises estimates only. -/
theorem Scanned.estimate_le {s : Scan} {t : LookupState} (h : Scanned rowPos heap seen s t)
    {fp : Bytes} (hwrap : CMSketch.Unwrapped rowPos s.cmSketch.depth (seen ++ [fp]))
    (other : Bytes) : s.cmSketch.estimateAt rowPos other ≤
      (s.cmSketch.updateAt rowPos fp 1).estimateAt rowPos other :=
  h.counts.estimateAt_mono (h.counts.updateAt hwrap) rfl other

/-- The status of a fingerprint that is new in the batch. -/
def freshFlag (heap : EntryHeap) (fp : Bytes) : DedupFlag :=
  if fp ∈ heap.index then .duplicate else .unique

/-- The simulator's status of a new fingerprint does not depend on the least frequency. -/
theorem scanStep_fresh {newMinHeap : EntryHeap} {freq : Nat} {s : Scan} {c : ChunkInfo}
    (hnew : s.tmpIndex.lookup c.fpStr = none)
    (hfloor : c.fpStr ∈ newMinHeap.index →
      freq ≤ (s.cmSketch.updateAt rowPos c.fpStr 1).estimateAt rowPos c.fpStr) :
    scanStep rowPos newMinHeap freq s c =
      .ok ({ s with cmSketch := s.cmSketch.updateAt rowPos c.fpStr 1 }.enter c.fpStr
        ((s.cmSketch.updateAt rowPos c.fpStr 1).estimateAt rowPos c.fpStr)
        (freshFlag newMinHeap c.fpStr)) := by
  unfold scanStep freshFlag EntryHeap.contains
  simp only [hnew]
  by_cases hin : c.fpStr ∈ newMinHeap.index
  · have hle := not_lt.mpr (hfloor hin)
    simp only [hin, hle, if_true, if_false, decide_true]
  · simp only [hin, if_false, decide_false, Bool.false_eq_true, ite_self]

/-- Nor does the enclave's. -/
theorem lookupStep_fresh {freq : Nat} {t : LookupState} {e : InQueryEntry}
    (hnew : t.localIndex.lookup e.chunkHash = none)
    (hfloor : e.chunkHash ∈ heap.index → freq ≤ e.chunkFreq) :
    ∃ t' d, lookupStep p heap freq t e = .ok t' ∧ t'.done = t.done ++ [d] ∧
      t'.localIndex = t.localIndex.insert e.chunkHash t.done.length ∧
      d.chunkHash = e.chunkHash ∧ d.chunkFreq = e.chunkFreq ∧
      d.dedupFlag = some (freshFlag heap e.chunkHash) := by
  unfold lookupStep freshFlag
  simp only [hnew]
  by_cases hin : e.chunkHash ∈ heap.index
  · obtain ⟨item, hitem⟩ := Option.isSome_iff_exists.mp (AList.lookup_isSome.mpr hin)
    have hle := not_lt.mpr (hfloor hin)
    simp only [hle, if_false, EntryHeap.getPriority, hitem, hin, if_true]
    exact ⟨_, _, rfl, rfl, rfl, rfl, rfl, rfl⟩
  · have hnone : heap.getPriority e.chunkHash = none := AList.lookup_eq_none.mpr hin
    simp only [hnone, hin, if_false, ite_self]
    exact ⟨_, _, rfl, rfl, rfl, rfl, rfl, rfl⟩

/-- What a map gives after an insertion. -/
theorem lookup_insert_cases {β : Type} {m : AList fun _ : Bytes => β} {k other : Bytes} {v x : β}
    (h : (m.insert k v).lookup other = some x) :
    (other = k ∧ v = x) ∨ (other ≠ k ∧ m.lookup other = some x) := by
  by_cases hother : other = k
  · subst hother
    rw [AList.lookup_insert] at h
    exact Or.inl ⟨rfl, Option.some.inj h⟩
  · rw [AList.lookup_insert_ne hother] at h
    exact Or.inr ⟨hother, h⟩

/-- A fingerprint is counted and gets its frequency in both batch indexes; the entries
of the others stay. -/
theorem Scanned.put {s : Scan} {t t' : LookupState} (h : Scanned rowPos heap seen s t)
    {fp : Bytes} (hwrap : CMSketch.Unwrapped rowPos s.cmSketch.depth (seen ++ [fp]))
    {offset : Nat} {flag : DedupFlag}
    (hstatuses : t'.done.map InQueryEntry.dedupFlag =
      t.done.map InQueryEntry.dedupFlag ++ [some flag])
    (hself : t'.localIndex.lookup fp = some offset)
    (hothers : ∀ other, other ≠ fp → t'.localIndex.lookup other = t.localIndex.lookup other)
    (hentry : ∃ e, t'.done[offset]? = some e ∧ e.chunkHash = fp ∧
      e.chunkFreq = (s.cmSketch.updateAt rowPos fp 1).estimateAt rowPos fp)
    (hkeep : ∀ (i : Nat) (e : InQueryEntry), t.done[i]? = some e → e.chunkHash ≠ fp →
      t'.done[i]? = some e) :
    Scanned rowPos heap (seen ++ [fp])
      { cmSketch := s.cmSketch.updateAt rowPos fp 1
        tmpIndex := s.tmpIndex.insert fp
          { freq := (s.cmSketch.updateAt rowPos fp 1).estimateAt rowPos fp, offset := offset }
        dedupStatusRecord := s.dedupStatusRecord ++ [flag] } t' where
  statuses := by
    rw [hstatuses, h.statuses, List.map_append]
    rfl
  offsets := by
    intro other
    by_cases hother : other = fp
    · subst hother
      rw [hself, AList.lookup_insert]
      rfl
    · rw [hothers other hother, h.offsets, AList.lookup_insert_ne hother]
  found := by
    intro other st hst
    rcases lookup_insert_cases hst with ⟨rfl, rfl⟩ | ⟨hother, hold⟩
    · exact hentry
    · obtain ⟨e, he, rfl, hfreq⟩ := h.found other st hold
      exact ⟨e, hkeep _ e he hother, rfl, hfreq⟩
  counts := h.counts.updateAt hwrap
  bounded := fun other f a hmember =>
    (h.bounded other f a hmember).trans (h.estimate_le hwrap other)
  lower := by
    intro other st f a hst hmember
    rcases lookup_insert_cases hst with ⟨rfl, rfl⟩ | ⟨-, hold⟩
    · exact (h.bounded other f a hmember).trans (h.estimate_le hwrap other)
    · exact h.lower other st f a hold hmember
  upper := by
    intro other st hst
    rcases lookup_insert_cases hst with ⟨rfl, rfl⟩ | ⟨-, hold⟩
    · exact le_rfl
    · exact (h.upper other st hold).trans (h.estimate_le hwrap other)

/-- A new fingerprint enters both batch indexes. -/
theorem Scanned.enter {s : Scan} {t t' : LookupState} (h : Scanned rowPos heap seen s t)
    {fp : Bytes} (hwrap : CMSketch.Unwrapped rowPos s.cmSketch.depth (seen ++ [fp]))
    {d : InQueryEntry} {flag : DedupFlag} (hdone : t'.done = t.done ++ [d])
    (hindex : t'.localIndex = t.localIndex.insert fp t.done.length) (hhash : d.chunkHash = fp)
    (hfreq : d.chunkFreq = (s.cmSketch.updateAt rowPos fp 1).estimateAt rowPos fp)
    (hflag : d.dedupFlag = some flag) :
    Scanned rowPos heap (seen ++ [fp])
      ({ s with cmSketch := s.cmSketch.updateAt rowPos fp 1 }.enter fp
        ((s.cmSketch.updateAt rowPos fp 1).estimateAt rowPos fp) flag) t' := by
  unfold Scan.enter
  apply h.put hwrap
  · rw [hdone, List.map_append, List.map_singleton, hflag]
  · rw [hindex, AList.lookup_insert, h.length]
  · intro other hother
    rw [hindex, AList.lookup_insert_ne hother]
  · exact ⟨d, by simp [hdone, h.length], hhash, hfreq⟩
  · intro i e he _
    rw [hdone, List.getElem?_append_left (List.getElem?_eq_some_iff.mp he).1, he]

/-- A fingerprint that occurred before passes its frequency on, on both sides. -/
theorem Scanned.again {s : Scan} {t : LookupState} (h : Scanned rowPos heap seen s t)
    {e : InQueryEntry} (hwrap : CMSketch.Unwrapped rowPos s.cmSketch.depth (seen ++ [e.chunkHash]))
    (hfreq : e.chunkFreq =
      (s.cmSketch.updateAt rowPos e.chunkHash 1).estimateAt rowPos e.chunkHash)
    {st : ChunkStatus} (hst : t.localIndex.lookup e.chunkHash = some st.offset)
    {found : InQueryEntry} (hfound : t.done[st.offset]? = some found)
    (hhash : found.chunkHash = e.chunkHash) (flag : DedupFlag) :
    Scanned rowPos heap (seen ++ [e.chunkHash])
      ({ s with cmSketch := s.cmSketch.updateAt rowPos e.chunkHash 1 }.again e.chunkHash st
        ((s.cmSketch.updateAt rowPos e.chunkHash 1).estimateAt rowPos e.chunkHash) flag)
      (backReference t e st.offset found flag) := by
  have hlt : st.offset < t.done.length := (List.getElem?_eq_some_iff.mp hfound).1
  unfold Scan.again
  apply h.put hwrap
  · have hsame := map_set_of_eq (y := { found with chunkFreq := e.chunkFreq })
      InQueryEntry.dedupFlag hfound rfl
    rw [backReference, List.map_append, hsame]
    rfl
  · exact hst
  · exact fun _ _ => rfl
  · refine ⟨{ found with chunkFreq := e.chunkFreq }, ?_, hhash, hfreq⟩
    rw [backReference, List.getElem?_append_left (by rwa [List.length_set]),
      List.getElem?_set_self hlt]
  · intro i e' he' hother
    have hlt' := (List.getElem?_eq_some_iff.mp he').1
    -- another fingerprint stands at another position
    have hpos : st.offset ≠ i := by
      intro heq
      rw [heq, he'] at hfound
      cases hfound
      exact hother hhash
    rw [backReference, List.getElem?_append_left (by rwa [List.length_set]),
      List.getElem?_set_ne hpos, he']

/-- **One chunk** in both loops. -/
theorem Scanned.step {newMinHeap : EntryHeap} (halike : EntryHeap.Alike heap newMinHeap)
    {minFreq freq : Nat} (hfloor : Floor heap minFreq) (hfloor' : Floor heap freq) {s : Scan}
    {t t' : LookupState} (h : Scanned rowPos heap seen s t) {c : ChunkInfo} {e : InQueryEntry}
    (hhash : e.chunkHash = c.fpStr)
    (hfreq : e.chunkFreq =
      (s.cmSketch.updateAt rowPos e.chunkHash 1).estimateAt rowPos e.chunkHash)
    (hwrap : CMSketch.Unwrapped rowPos s.cmSketch.depth (seen ++ [e.chunkHash]))
    (hrun : lookupStep p heap minFreq t e = .ok t') :
    ∃ s', scanStep rowPos newMinHeap freq s c = .ok s' ∧
      s'.cmSketch = s.cmSketch.updateAt rowPos e.chunkHash 1 ∧
      Scanned rowPos heap (seen ++ [e.chunkHash]) s' t' := by
  obtain ⟨fpStr, chunkSize⟩ := c
  obtain rfl : e.chunkHash = fpStr := hhash
  have hoffset := h.offsets e.chunkHash
  cases hst : s.tmpIndex.lookup e.chunkHash with
  | none =>
      rw [hst, Option.map_none] at hoffset
      have hmember : e.chunkHash ∈ heap.index → minFreq ≤ e.chunkFreq ∧ freq ≤ e.chunkFreq := by
        intro hin
        obtain ⟨⟨f, a⟩, hentry⟩ :=
          Option.isSome_iff_exists.mp (EntryHeap.mem_index_iff.mp hin)
        have hle : f ≤ e.chunkFreq := by
          rw [hfreq]
          exact (h.bounded _ f a hentry).trans (h.estimate_le hwrap _)
        exact ⟨(hfloor _ f a hentry).trans hle, (hfloor' _ f a hentry).trans hle⟩
      obtain ⟨t₁, d, hlook, hdone, hindex, hhash', hfreq', hflag⟩ :=
        lookupStep_fresh (p := p) hoffset fun hin => (hmember hin).1
      obtain rfl : t₁ = t' := Except.ok.inj (hlook.symm.trans hrun)
      have hscan : scanStep rowPos newMinHeap freq s ⟨e.chunkHash, chunkSize⟩ = _ :=
        scanStep_fresh hst (by
          intro hin
          rw [← hfreq]
          exact (hmember ((halike.mem_iff _).mpr hin)).2)
      have hsame : freshFlag newMinHeap e.chunkHash = freshFlag heap e.chunkHash :=
        if_congr (halike.mem_iff _).symm rfl rfl
      rw [hsame] at hscan
      exact ⟨_, hscan, rfl, h.enter hwrap hdone hindex hhash' (hfreq'.trans hfreq) hflag⟩
  | some st =>
      rw [hst, Option.map_some] at hoffset
      obtain ⟨found, hfound, hsame, -⟩ := h.found _ st hst
      have hagain := h.again hwrap hfreq hoffset hfound hsame
      -- the status of the earlier position is the same on both sides
      have hstatus : (s.dedupStatusRecord[st.offset]?).map some = some found.dedupFlag := by
        rw [← List.getElem?_map, ← h.statuses, List.getElem?_map, hfound]
        rfl
      obtain ⟨flag, hrecord, hflag⟩ := Option.map_eq_some_iff.mp hstatus
      unfold lookupStep at hrun
      simp only [hoffset, hfound, ← hflag] at hrun
      unfold scanStep
      simp only [hst, hrecord]
      cases flag with
      | unique =>
          cases hrun
          exact ⟨_, rfl, rfl, hagain .tmpUnique⟩
      | duplicate =>
          cases hrun
          exact ⟨_, rfl, rfl, hagain .tmpDuplicate⟩
      | tmpUnique => cases hrun
      | tmpDuplicate => cases hrun

/-- **The first loop follows the lookup section**, and counts what the sketch section
counts. -/
theorem Scanned.loop {newMinHeap : EntryHeap} (halike : EntryHeap.Alike heap newMinHeap)
    {minFreq freq : Nat} (hfloor : Floor heap minFreq) (hfloor' : Floor heap freq)
    (chunks : List Bytes) {s : Scan} {t t' : LookupState} (h : Scanned rowPos heap seen s t)
    (hwrap : CMSketch.Unwrapped rowPos s.cmSketch.depth
      (seen ++ chunks.map p.crypto.generateHash))
    (hrun : (sketchSectionAt rowPos s.cmSketch (chunks.map (hashEntry p))).2.foldlM
      (lookupStep p heap minFreq) t = .ok t') :
    ∃ s', (chunks.map fun chunk => ChunkInfo.mk (p.crypto.generateHash chunk) chunk.length).foldlM
        (scanStep rowPos newMinHeap freq) s = .ok s' ∧
      s'.cmSketch = (sketchSectionAt rowPos s.cmSketch (chunks.map (hashEntry p))).1 ∧
      Scanned rowPos heap (seen ++ chunks.map p.crypto.generateHash) s' t' := by
  induction chunks generalizing seen s t with
  | nil =>
      cases hrun
      exact ⟨s, rfl, rfl, by simpa using h⟩
  | cons chunk chunks ih =>
      have hsplit : seen ++ (chunk :: chunks).map p.crypto.generateHash =
          seen ++ [p.crypto.generateHash chunk] ++ chunks.map p.crypto.generateHash := by simp
      rw [hsplit] at hwrap ⊢
      obtain ⟨t₁, hstep, hrest⟩ := Loops.bind_eq_ok.mp hrun
      obtain ⟨s₁, hscan, hsketch, h₁⟩ :=
        h.step (c := ⟨p.crypto.generateHash chunk, chunk.length⟩) halike hfloor hfloor' rfl rfl
          hwrap.left hstep
      change Scanned rowPos heap (seen ++ [p.crypto.generateHash chunk]) s₁ t₁ at h₁
      rw [← hsketch] at hrest
      have hdepth : s₁.cmSketch.depth = s.cmSketch.depth := by
        rw [hsketch, CMSketch.updateAt_depth]
      rw [← hdepth] at hwrap
      obtain ⟨s', hloop, hsketch', h'⟩ := ih h₁ hwrap hrest
      refine ⟨s', ?_, ?_, h'⟩
      · rw [List.map_cons, Loops.foldlM_cons_ok hscan, hloop]
      · rw [hsketch', hsketch]
        rfl

/-- `tmpIndex` knows the frequency of every first entry. -/
theorem Scanned.first_freq {good : Bytes → RecipeEntry → Prop} {pre : List InQueryEntry}
    {s : Scan} {t : LookupState} (h : Scanned rowPos heap seen s t)
    (hinv : LookupInv p good pre t) {i : Nat} {e : InQueryEntry} (he : t.done[i]? = some e)
    (hfirst : e.IsFirst) :
    ∃ st, s.tmpIndex.lookup e.chunkHash = some st ∧ st.freq = e.chunkFreq := by
  have hcovered := hinv.covered e (List.mem_of_getElem? he)
  obtain ⟨j, hj⟩ := Option.isSome_iff_exists.mp (AList.lookup_isSome.mpr hcovered)
  obtain ⟨e₁, he₁, hhash₁, hfirst₁⟩ := hinv.first _ j hj
  obtain rfl : i = j := hinv.flagged.first_pos he he₁ hfirst hfirst₁ hhash₁.symm
  rw [h.offsets] at hj
  obtain ⟨st, hst, rfl⟩ := Option.map_eq_some_iff.mp hj
  obtain ⟨e₂, he₂, -, hfreq⟩ := h.found _ st hst
  obtain rfl : e = e₂ := Option.some.inj (he.symm.trans he₂)
  exact ⟨st, hst, hfreq.symm⟩

/-! ## The two heap updates -/

/-- No condition on addresses. -/
abbrev AnyAddress : Bytes → RecipeEntry → Prop := fun _ _ => True

/-- After one entry: the heap holds its frequency, or what it held. -/
def FreqFrom (heap : EntryHeap) (d : InQueryEntry) (heap' : EntryHeap) : Prop :=
  ∀ fp f a, heap'.entry fp = some (f, a) →
    (fp = d.chunkHash ∧ f = d.chunkFreq) ∨ ∃ a', heap.entry fp = some (f, a')

/-- The entry was set in a heap without new entries. -/
theorem freqFrom_of_set {heap old heap' : EntryHeap} {d : InQueryEntry} {a : RecipeEntry}
    (hold : ∀ fp x, old.entry fp = some x → heap.entry fp = some x)
    (hentries : ∀ k, heap'.entry k =
      if k = d.chunkHash then some (d.chunkFreq, a) else old.entry k) :
    FreqFrom heap d heap' := by
  intro fp f a' hmember
  rcases EntryHeap.entry_of_set hentries hmember with ⟨hfp, heq⟩ | hmember
  · cases heq
    exact .inl ⟨hfp, rfl⟩
  · exact .inr ⟨a', hold _ _ hmember⟩

/-- Both put the entry of a first position in place, or both leave the heap. -/
structure Placed (heap heap' : EntryHeap) (d : InQueryEntry) (idx idx' : FreqIndex) : Prop where
  alike : EntryHeap.Alike heap' idx'.newMinHeap
  freqs : FreqFrom heap d heap'
  k : idx'.k = idx.k
  sketch : idx'.cmSketch = idx.cmSketch

/-- A member of the heap passes `CheckIfAddToHeap`, which the simulator does not ask. -/
theorem checkIfAddToHeap_member (hgood : HeapGood p AnyAddress heap) {fp : Bytes} {f freq : Nat}
    {a : RecipeEntry} (hentry : heap.entry fp = some (f, a)) (hle : f ≤ freq) :
    checkIfAddToHeap p heap freq = .ok true := by
  unfold checkIfAddToHeap
  split
  · rfl
  · have hmem : fp ∈ heap.heap :=
      (hgood.inv.linked.mem_iff fp).mpr (EntryHeap.mem_index_iff.mpr (by simp [hentry]))
    obtain ⟨top, htop, hleast⟩ := hgood.inv.topEntry (List.length_pos_of_mem hmem)
    have hpass : top ≤ freq := (hleast fp f a hentry).trans hle
    simp [htop, inRange, hpass, bind, Except.bind, pure, Except.pure]

variable {idx : FreqIndex} {d : InQueryEntry}

/-- The heap update of a first entry, once `CheckIfAddToHeap` has decided. -/
theorem updateHeapStep_first (hfirst : d.IsFirst) {b : Bool}
    (hcheck : checkIfAddToHeap p heap d.chunkFreq = .ok b) :
    updateHeapStep p heap d =
      if b then
        if heap.contains d.chunkHash then inRange (heap.update d.chunkHash d.chunkFreq)
        else addChunkToHeap p heap d.chunkFreq d.chunkAddr d.chunkHash
      else .ok heap := by
  unfold InQueryEntry.IsFirst at hfirst
  rw [updateHeapStep, if_pos hfirst, hcheck]
  rfl

/-- The item that the enclave adds, up to its address. -/
theorem bareItem_newItem (d : InQueryEntry) :
    EntryHeap.bareItem { address := d.chunkAddr, chunkFreq := d.chunkFreq, idx := 0 } =
      EntryHeap.bareItem (newItem d.chunkFreq) := rfl

/-- The entry is a member. -/
theorem placeInHeap_member (halike : EntryHeap.Alike heap idx.newMinHeap)
    (hgood : HeapGood p AnyAddress heap) (hfirst : d.IsFirst) {f : Nat} {a : RecipeEntry}
    (hentry : heap.entry d.chunkHash = some (f, a)) (hle : f ≤ d.chunkFreq) :
    ∃ heap' idx', updateHeapStep p heap d = .ok heap' ∧
      placeInHeap idx d.chunkHash d.chunkFreq = .ok idx' ∧ Placed heap heap' d idx idx' := by
  have hin : d.chunkHash ∈ heap.index := EntryHeap.mem_index_iff.mpr (by simp [hentry])
  have hcontains : heap.contains d.chunkHash = true := decide_eq_true hin
  obtain ⟨heap', hupdate, -, -, hentries⟩ := hgood.inv.update hentry d.chunkFreq
  obtain ⟨sim', hupdate', halike'⟩ := halike.update hupdate
  refine ⟨heap', { idx with newMinHeap := sim' }, ?_, ?_, halike',
    freqFrom_of_set (fun _ _ => id) hentries, rfl, rfl⟩
  · rw [updateHeapStep_first hfirst (checkIfAddToHeap_member hgood hentry hle), if_pos rfl,
      if_pos hcontains, hupdate]
    rfl
  · rw [placeInHeap, if_pos (halike.contains _ ▸ hcontains), hupdate']
    rfl

/-- The entry is new and there is room. -/
theorem placeInHeap_room (halike : EntryHeap.Alike heap idx.newMinHeap)
    (hk : idx.k = p.topThreshold) (hgood : HeapGood p AnyAddress heap) (hfirst : d.IsFirst)
    (hnew : d.chunkHash ∉ heap.index) (hroom : heap.size < p.topThreshold) :
    ∃ heap' idx', updateHeapStep p heap d = .ok heap' ∧
      placeInHeap idx d.chunkHash d.chunkFreq = .ok idx' ∧ Placed heap heap' d idx idx' := by
  have hcontains : heap.contains d.chunkHash = false := decide_eq_false hnew
  obtain ⟨heap', hadd, -, -, hentries⟩ := hgood.inv.add hnew
    { address := d.chunkAddr, chunkFreq := d.chunkFreq, idx := 0 }
  obtain ⟨sim', hadd', halike'⟩ := halike.add (bareItem_newItem d) hadd
  have hcheck : checkIfAddToHeap p heap d.chunkFreq = .ok true := if_pos hroom
  have hnotfull : idx.newMinHeap.size ≠ idx.k := by
    rw [← halike.size, hk]
    exact Nat.ne_of_lt hroom
  refine ⟨heap', { idx with newMinHeap := sim' }, ?_, ?_, halike',
    freqFrom_of_set (fun _ _ => id) hentries, rfl, rfl⟩
  · rw [updateHeapStep_first hfirst hcheck]
    simp [hcontains, addChunkToHeap, makeRoom, Nat.ne_of_lt hroom, hadd, inRange, bind,
      Except.bind]
  · simp [placeInHeap, ← halike.contains, hcontains, hnotfull, hadd', inRange, bind, Except.bind,
      pure, Except.pure]

/-- The entry is new and the heap is full: it replaces the least, unless it is less. -/
theorem placeInHeap_full (halike : EntryHeap.Alike heap idx.newMinHeap)
    (hk : idx.k = p.topThreshold) (hgood : HeapGood p AnyAddress heap) (hfirst : d.IsFirst)
    (hnew : d.chunkHash ∉ heap.index) (hfull : heap.size = p.topThreshold) :
    ∃ heap' idx', updateHeapStep p heap d = .ok heap' ∧
      placeInHeap idx d.chunkHash d.chunkFreq = .ok idx' ∧ Placed heap heap' d idx idx' := by
  have htwo : 2 ≤ heap.heap.length := p.two_le_topThreshold.trans hfull.ge
  have hcontains : heap.contains d.chunkHash = false := decide_eq_false hnew
  have hfull' : idx.newMinHeap.size = idx.k := by rw [← halike.size, hk, hfull]
  have hnotroom : ¬ heap.size < p.topThreshold := hfull ▸ lt_irrefl _
  obtain ⟨top, htop, -⟩ := hgood.inv.topEntry (by omega)
  have htop' : idx.newMinHeap.topEntry = some top := halike.topEntry ▸ htop
  have hcheck : checkIfAddToHeap p heap d.chunkFreq = .ok (decide (top ≤ d.chunkFreq)) := by
    rw [checkIfAddToHeap, if_neg hnotroom, htop]
    rfl
  by_cases hle : top ≤ d.chunkFreq
  · obtain ⟨popped, t, hpop, -, hinv, -, hpopped⟩ := hgood.inv.pop htwo
    obtain ⟨sim₁, hpop', halike₁⟩ := halike.pop hpop
    have hold := EntryHeap.entries_of_removed hpopped
    have hnew' : d.chunkHash ∉ popped.index := EntryHeap.not_mem_of_entries hold hnew
    obtain ⟨heap', hadd, -, -, hentries⟩ := hinv.add hnew'
      { address := d.chunkAddr, chunkFreq := d.chunkFreq, idx := 0 }
    obtain ⟨sim', hadd', halike'⟩ := halike₁.add (bareItem_newItem d) hadd
    refine ⟨heap', { idx with
      newMinHeap := sim'
      replaceHappensTime := idx.replaceHappensTime + 1 }, ?_, ?_, halike',
      freqFrom_of_set hold hentries, rfl, rfl⟩
    · rw [updateHeapStep_first hfirst hcheck]
      simp [hle, hcontains, addChunkToHeap, makeRoom, hfull, hpop, hadd, inRange, bind,
        Except.bind]
    · simp [placeInHeap, ← halike.contains, hcontains, hfull', htop', hle, hpop', hadd', inRange,
        bind, Except.bind, pure, Except.pure]
  · refine ⟨heap, idx, ?_, ?_, halike, fun fp f a hmember => Or.inr ⟨a, hmember⟩, rfl, rfl⟩
    · rw [updateHeapStep_first hfirst hcheck]
      simp [hle]
    · simp [placeInHeap, ← halike.contains, hcontains, hfull', htop', hle, inRange, bind,
        Except.bind, pure, Except.pure]

/-- **One first entry** in both heap updates. -/
theorem placeInHeap_follows (halike : EntryHeap.Alike heap idx.newMinHeap)
    (hk : idx.k = p.topThreshold) (hgood : HeapGood p AnyAddress heap) (hfirst : d.IsFirst)
    (hpending : ∀ f a, heap.entry d.chunkHash = some (f, a) → f ≤ d.chunkFreq) :
    ∃ heap' idx', updateHeapStep p heap d = .ok heap' ∧
      placeInHeap idx d.chunkHash d.chunkFreq = .ok idx' ∧ Placed heap heap' d idx idx' := by
  by_cases hin : d.chunkHash ∈ heap.index
  · obtain ⟨⟨f, a⟩, hentry⟩ := Option.isSome_iff_exists.mp (EntryHeap.mem_index_iff.mp hin)
    exact placeInHeap_member halike hgood hfirst hentry (hpending f a hentry)
  · rcases Nat.lt_or_eq_of_le hgood.size with hroom | hfull
    · exact placeInHeap_room halike hk hgood hfirst hin hroom
    · exact placeInHeap_full halike hk hgood hfirst hin hfull

/-- What a position of the batch is in the two heap updates. -/
structure Matched (tmpIndex : AList (fun _ : Bytes => ChunkStatus)) (d : InQueryEntry)
    (x : ChunkInfo × DedupFlag) : Prop where
  hash : x.1.fpStr = d.chunkHash
  flag : d.dedupFlag = some x.2
  freq : d.IsFirst → ∃ st, tmpIndex.lookup d.chunkHash = some st ∧ st.freq = d.chunkFreq

/-- The heap updates in mid-run, over the sketch that the batch left. -/
structure Updating (rowPos : Bytes → Nat → Nat) (p : Params) (sketch : CMSketch)
    (heap : EntryHeap) (idx : FreqIndex) : Prop where
  alike : EntryHeap.Alike heap idx.newMinHeap
  k : idx.k = p.topThreshold
  counted : idx.cmSketch = sketch
  good : HeapGood p AnyAddress heap
  bounded : Bounded rowPos heap sketch

/-- What is known of an entry still to come: the heap holds no more than its frequency,
which is no more than the estimate. -/
structure Pending (rowPos : Bytes → Nat → Nat) (sketch : CMSketch) (heap : EntryHeap)
    (d : InQueryEntry) : Prop where
  lower : d.IsFirst → ∀ f a, heap.entry d.chunkHash = some (f, a) → f ≤ d.chunkFreq
  upper : d.IsFirst → d.chunkFreq ≤ sketch.estimateAt rowPos d.chunkHash

variable {sketch : CMSketch} {tmpIndex : AList (fun _ : Bytes => ChunkStatus)}

/-- **One position** in both heap updates. -/
theorem Updating.step (h : Updating rowPos p sketch heap idx)
    {x : ChunkInfo × DedupFlag} (hx : Matched tmpIndex d x)
    (hd : Pending rowPos sketch heap d) :
    ∃ heap' idx', updateHeapStep p heap d = .ok heap' ∧ updateStep tmpIndex idx x = .ok idx' ∧
      Updating rowPos p sketch heap' idx' ∧
      (d.IsFirst ∧ FreqFrom heap d heap' ∨ heap' = heap) := by
  obtain ⟨⟨fpStr, chunkSize⟩, flag⟩ := x
  obtain ⟨rfl, hflag, hfreq⟩ := hx
  by_cases hfirst : d.IsFirst
  · obtain ⟨st, hst, hst'⟩ := hfreq hfirst
    obtain ⟨heap', idx', hrun, hplace, hplaced⟩ :=
      placeInHeap_follows h.alike h.k h.good hfirst (hd.lower hfirst)
    obtain ⟨heap₁, hrun₁, hgood, -⟩ := updateHeapStep_spec h.good (e := d) fun _ => trivial
    obtain rfl : heap' = heap₁ := Except.ok.inj (hrun.symm.trans hrun₁)
    have hbounded : Bounded rowPos heap' sketch := by
      intro fp f a hentry
      rcases hplaced.freqs fp f a hentry with ⟨rfl, rfl⟩ | ⟨a', hold⟩
      · exact hd.upper hfirst
      · exact h.bounded fp f a' hold
    have hupdating : Updating rowPos p sketch heap' idx' :=
      ⟨hplaced.alike, hplaced.k.trans h.k, hplaced.sketch.trans h.counted, hgood, hbounded⟩
    have hcurrent : ((tmpIndex.lookup d.chunkHash).map ChunkStatus.freq).getD 0 =
        d.chunkFreq := by
      rw [hst, Option.map_some, Option.getD_some, hst']
    -- both cases place the entry; a duplicate is counted besides
    rcases hfirst with hu | hd'
    · obtain rfl : flag = .unique := Option.some.inj (hflag.symm.trans hu)
      refine ⟨heap', idx', hrun, ?_, hupdating, Or.inl ⟨Or.inl hu, hplaced.freqs⟩⟩
      simp only [updateStep, hcurrent, hplace]
    · obtain rfl : flag = .duplicate := Option.some.inj (hflag.symm.trans hd')
      refine ⟨heap', idx'.countInside chunkSize, hrun, ?_,
        ⟨hupdating.alike, hupdating.k, hupdating.counted, hgood, hbounded⟩,
        Or.inl ⟨Or.inr hd', hplaced.freqs⟩⟩
      simp only [updateStep, hcurrent, hplace, bind, Except.bind, pure, Except.pure]
  · have hrun : updateHeapStep p heap d = .ok heap := by
      unfold InQueryEntry.IsFirst at hfirst
      rw [updateHeapStep, if_neg hfirst]
      rfl
    refine ⟨heap, idx.countInside chunkSize, hrun, ?_,
      ⟨h.alike, h.k, h.counted, h.good, h.bounded⟩, Or.inr rfl⟩
    cases flag with
    | unique => exact absurd (Or.inl hflag) hfirst
    | duplicate => exact absurd (Or.inr hflag) hfirst
    | tmpUnique => rfl
    | tmpDuplicate => rfl

/-- **The last loop follows the heap update section.** -/
theorem Updating.loop {done : List InQueryEntry} {xs : List (ChunkInfo × DedupFlag)}
    (hmatched : List.Forall₂ (Matched tmpIndex) done xs)
    (hdistinct : done.Pairwise fun d d' => d.IsFirst → d'.IsFirst → d.chunkHash ≠ d'.chunkHash)
    (h : Updating rowPos p sketch heap idx) (hpending : ∀ d ∈ done, Pending rowPos sketch heap d) :
    ∃ heap' idx', updateHeapSection p heap done = .ok heap' ∧
      xs.foldlM (updateStep tmpIndex) idx = .ok idx' ∧
      Updating rowPos p sketch heap' idx' := by
  induction hmatched generalizing heap idx with
  | nil => exact ⟨heap, idx, rfl, rfl, h⟩
  | @cons d x done xs hx hrest ih =>
      obtain ⟨hnew, hdistinct'⟩ := List.pairwise_cons.mp hdistinct
      obtain ⟨heap₁, idx₁, hrun, hsim, h₁, hfrom⟩ := h.step hx (hpending d List.mem_cons_self)
      have hpending₁ : ∀ d' ∈ done, Pending rowPos sketch heap₁ d' := by
        intro d' hd'
        have hold := hpending d' (List.mem_cons_of_mem _ hd')
        refine ⟨?_, hold.upper⟩
        intro hfirst' f a hentry
        rcases hfrom with ⟨hfirst, hfrom⟩ | rfl
        · rcases hfrom _ f a hentry with ⟨hsame, -⟩ | ⟨a', hentry'⟩
          · exact absurd hsame.symm (hnew d' hd' hfirst hfirst')
          · exact hold.lower hfirst' f a' hentry'
        · exact hold.lower hfirst' f a hentry
      obtain ⟨heap', idx', hloop, hloop', h'⟩ := ih hdistinct' h₁ hpending₁
      refine ⟨heap', idx', ?_, ?_, h'⟩
      · rw [updateHeapSection, Loops.foldlM_cons_ok hrun]
        exact hloop
      · rw [Loops.foldlM_cons_ok hsim, hloop']

/-! ## One batch -/

/-- Enclave and simulator between two batches, after the fingerprints `seen`. -/
structure Agree (rowPos : Bytes → Nat → Nat) (p : Params) (seen : List Bytes)
    (idx : Debe.FreqIndex) (sim : FreqIndex) : Prop where
  alike : EntryHeap.Alike idx.insideDedupIndex sim.newMinHeap
  k : sim.k = p.topThreshold
  counted : sim.cmSketch = idx.cmSketch
  counts : CMSketch.Counts rowPos seen idx.cmSketch
  bounded : Bounded rowPos idx.insideDedupIndex idx.cmSketch

theorem agree_init (rowPos : Bytes → Nat → Nat) (p : Params) :
    Agree rowPos p [] .init (.init p.topThreshold) where
  alike := EntryHeap.Alike.refl _
  k := rfl
  counted := rfl
  counts := CMSketch.counts_init rowPos _ _
  bounded := by simp [Bounded, Debe.FreqIndex.init, EntryHeap.entry, EntryHeap.empty]

/-- The least frequency of a full heap, or zero. -/
theorem minFreq_floor (hgood : HeapGood p AnyAddress heap) :
    ∃ freq, minFreq p heap = .ok freq ∧ Floor heap freq := by
  have htwo := p.two_le_topThreshold
  unfold minFreq
  split
  · rename_i hfull
    obtain ⟨top, htop, hleast⟩ := hgood.inv.topEntry (by unfold EntryHeap.size at hfull; omega)
    exact ⟨top, by simp [inRange, htop], hleast⟩
  · exact ⟨0, rfl, fun _ _ _ _ => Nat.zero_le _⟩

/-- The least frequency of a heap that is not empty, or zero. -/
theorem currentMinFreq_floor (hgood : HeapGood p AnyAddress heap) {newMinHeap : EntryHeap}
    (halike : EntryHeap.Alike heap newMinHeap) :
    ∃ freq, currentMinFreq newMinHeap = .ok freq ∧ Floor heap freq := by
  unfold currentMinFreq
  rw [← halike.size, ← halike.topEntry]
  split
  · rename_i hsome
    obtain ⟨top, htop, hleast⟩ := hgood.inv.topEntry (Nat.pos_of_ne_zero hsome)
    exact ⟨top, by simp [inRange, htop], hleast⟩
  · exact ⟨0, rfl, fun _ _ _ _ => Nat.zero_le _⟩

/-- Both ask outside for the fingerprints of the positions flagged unique. -/
theorem queries_eq (p : Params) {es : List InQueryEntry} {cs : List ChunkInfo}
    {flags : List DedupFlag} (hhash : es.map InQueryEntry.chunkHash = cs.map ChunkInfo.fpStr)
    (hflag : es.map InQueryEntry.dedupFlag = flags.map some) :
    (outQueries p es).map OutQueryEntry.chunkHash =
      ((outsideQueries cs flags).map ChunkInfo.fpStr).map
        (p.crypto.indexAESCMCEnc p.indexQueryKey) := by
  induction es generalizing cs flags with
  | nil =>
      obtain rfl : cs = [] := List.map_eq_nil_iff.mp hhash.symm
      rfl
  | cons e es ih =>
      obtain ⟨c, cs, rfl, hc, hcs⟩ := List.map_eq_cons_iff.mp hhash.symm
      obtain ⟨flag, flags, rfl, hf, hfs⟩ := List.map_eq_cons_iff.mp hflag.symm
      have hrest := ih hcs.symm hfs.symm
      unfold outQueries outsideQueries at hrest ⊢
      rw [List.zip_cons_cons, List.filterMap_cons, List.filter_cons, outQueryOf, ← hf]
      by_cases hu : flag = .unique
      · simp [hu, hrest, hc]
      · simp [hu, hrest]

/-- An entry that the heap update sees, and what the lookup section left there. -/
theorem looked_entry {t : LookupState} {done : List InQueryEntry}
    (hdone : done.map InQueryEntry.unaddressed = t.done.map InQueryEntry.unaddressed) {i : Nat}
    {d : InQueryEntry} (hd : done[i]? = some d) :
    ∃ e, t.done[i]? = some e ∧ d.dedupFlag = e.dedupFlag ∧ d.chunkHash = e.chunkHash ∧
      d.chunkFreq = e.chunkFreq ∧ (d.IsFirst ↔ e.IsFirst) := by
  obtain ⟨e, he, hsame⟩ := exists_same_entry hdone hd
  obtain ⟨hflag, hhash, hfreq⟩ := InQueryEntry.unaddressed_fields hsame
  refine ⟨e, he, hflag.symm, hhash.symm, hfreq.symm, ?_⟩
  unfold InQueryEntry.IsFirst
  rw [hflag]

/-- The entries that the heap update sees match the positions of the simulator. -/
theorem Scanned.matched {good : Bytes → RecipeEntry → Prop} {pre : List InQueryEntry} {s : Scan}
    {t : LookupState} (h : Scanned rowPos heap seen s t) (hinv : LookupInv p good pre t)
    {cs : List ChunkInfo} (hhash : t.done.map InQueryEntry.chunkHash = cs.map ChunkInfo.fpStr)
    {done : List InQueryEntry}
    (hdone : done.map InQueryEntry.unaddressed = t.done.map InQueryEntry.unaddressed) :
    List.Forall₂ (Matched s.tmpIndex) done (cs.zip s.dedupStatusRecord) := by
  have hlen : done.length = t.done.length := by simpa using congrArg List.length hdone
  have hcs : t.done.length = cs.length := by simpa using congrArg List.length hhash
  have hrecord := h.length
  rw [List.forall₂_iff_get]
  refine ⟨by rw [List.length_zip, hrecord]; omega, ?_⟩
  intro i hi hi'
  obtain ⟨e, he, hflag, hfp, hfreq, hfirst⟩ :=
    looked_entry hdone (List.getElem?_eq_getElem hi)
  have hzip : (cs.zip s.dedupStatusRecord)[i]? = some ((cs.zip s.dedupStatusRecord).get ⟨i, hi'⟩) :=
    List.getElem?_eq_getElem hi'
  obtain ⟨hc, hf⟩ := List.getElem?_zip_eq_some.mp hzip
  have hhashAt := congrArg (·[i]?) hhash
  have hflagAt := congrArg (·[i]?) h.statuses
  simp only [List.getElem?_map, he, hc, hf, Option.map_some, Option.some.injEq] at hhashAt hflagAt
  refine ⟨hhashAt.symm.trans hfp.symm, hflag.trans hflagAt, ?_⟩
  intro hd
  obtain ⟨st, hst, hst'⟩ := h.first_freq hinv he (hfirst.mp hd)
  exact ⟨st, hfp ▸ hst, hst'.trans hfreq.symm⟩

/-- Before the heap update the frequencies lie between the heap and the sketch. -/
theorem Scanned.pending {good : Bytes → RecipeEntry → Prop} {pre : List InQueryEntry} {s : Scan}
    {t : LookupState} (h : Scanned rowPos heap seen s t) (hinv : LookupInv p good pre t)
    {done : List InQueryEntry}
    (hdone : done.map InQueryEntry.unaddressed = t.done.map InQueryEntry.unaddressed) :
    ∀ d ∈ done, Pending rowPos s.cmSketch heap d := by
  intro d hd
  obtain ⟨i, hi⟩ := List.mem_iff_getElem?.mp hd
  obtain ⟨e, he, -, hfp, hfreq, hfirst⟩ := looked_entry hdone hi
  constructor
  · intro hd' f a hentry
    obtain ⟨st, hst, hst'⟩ := h.first_freq hinv he (hfirst.mp hd')
    rw [hfreq, ← hst']
    exact h.lower _ st f a hst (hfp ▸ hentry)
  · intro hd'
    obtain ⟨st, hst, hst'⟩ := h.first_freq hinv he (hfirst.mp hd')
    rw [hfreq, hfp, ← hst']
    exact h.upper _ st hst

/-- First entries have different fingerprints. -/
theorem firsts_distinct {good : Bytes → RecipeEntry → Prop} {t : LookupState}
    (hflagged : Flagged good t.done) {done : List InQueryEntry}
    (hdone : done.map InQueryEntry.unaddressed = t.done.map InQueryEntry.unaddressed) :
    done.Pairwise fun d d' => d.IsFirst → d'.IsFirst → d.chunkHash ≠ d'.chunkHash := by
  rw [List.pairwise_iff_getElem]
  intro i j hi hj hij hfirst hfirst' hsame
  obtain ⟨e, he, -, hfp, -, hiff⟩ := looked_entry hdone (List.getElem?_eq_getElem hi)
  obtain ⟨e', he', -, hfp', -, hiff'⟩ := looked_entry hdone (List.getElem?_eq_getElem hj)
  have hpos := hflagged.first_pos he he' (hiff.mp hfirst) (hiff'.mp hfirst')
    (hfp.symm.trans (hsame.trans hfp'))
  omega

/-- **One batch.**  Enclave and simulator show the same, and agree again after it. -/
theorem Agree.batch {idx idx' : Debe.FreqIndex} {sim : FreqIndex}
    (h : Agree rowPos p seen idx sim) {good : Bytes → RecipeEntry → Prop}
    (hgood : HeapGood p good idx.insideDedupIndex) {chunks : List Bytes}
    (hsmall : chunks.length < 2 ^ 32)
    (hwrap : CMSketch.Unwrapped rowPos idx.cmSketch.depth
      (seen ++ chunks.map p.crypto.generateHash)) {looked : LookupState}
    (hpasses : BatchPasses rowPos p idx (chunks.map (hashEntry p)) looked idx') :
    ∃ sim' trace, processBatchFp rowPos sim
        (chunks.map fun chunk => ⟨p.crypto.generateHash chunk, chunk.length⟩) =
          .ok (sim', trace) ∧
      indexTrace idx' looked = trace.encrypted p ∧
      Agree rowPos p (seen ++ chunks.map p.crypto.generateHash) idx' sim' := by
  let cs : List ChunkInfo :=
    chunks.map fun chunk => ⟨p.crypto.generateHash chunk, chunk.length⟩
  have hany : HeapGood p AnyAddress idx.insideDedupIndex := hgood.mono fun _ _ _ => trivial
  obtain ⟨minimum, hmin, hfloor⟩ := minFreq_floor hany
  obtain ⟨minimum', hmin', hfloor'⟩ := currentMinFreq_floor hany h.alike
  -- the lookup section
  obtain ⟨hhashes, -⟩ := sketchSectionAt_fields rowPos idx.cmSketch (chunks.map (hashEntry p))
  have hcount : (sketchSectionAt rowPos idx.cmSketch (chunks.map (hashEntry p))).2.length <
      2 ^ 32 := by
    have hlen := congrArg List.length hhashes
    simp only [List.length_map] at hlen
    rwa [hlen]
  obtain ⟨looked₁, hlook₁, hinv⟩ := lookupSection_spec hany hcount
  obtain rfl : looked = looked₁ := Except.ok.inj (hpasses.lookup.symm.trans hlook₁)
  have hloop := hpasses.lookup
  unfold lookupSection at hloop
  rw [hmin] at hloop
  have hstart : Scanned rowPos idx.insideDedupIndex seen
      { cmSketch := sim.cmSketch, tmpIndex := ∅, dedupStatusRecord := [] }
      { done := [], outQuery := [], localIndex := ∅ } :=
    ⟨rfl, fun _ => rfl, nofun, h.counted ▸ h.counts, h.counted ▸ h.bounded, nofun, nofun⟩
  obtain ⟨s, hscan, hsketch, hs⟩ := hstart.loop h.alike hfloor hfloor' chunks
    (h.counted ▸ hwrap) (h.counted ▸ hloop)
  -- the heap update section
  obtain ⟨done, hupdate, hdone⟩ := hpasses.heap
  have hlooked : looked.done.map InQueryEntry.chunkHash = cs.map ChunkInfo.fpStr := by
    rw [hinv.hashes, hhashes]
    simp [cs, hashEntry, Function.comp_def]
  have hbefore : Updating rowPos p s.cmSketch idx.insideDedupIndex
      { sim with cmSketch := s.cmSketch } :=
    ⟨h.alike, h.k, rfl, hany, hs.bounded⟩
  obtain ⟨heap', sim', hupdate', hlast, hafter⟩ :=
    hbefore.loop (hs.matched hinv hlooked hdone) (firsts_distinct hinv.flagged hdone)
      (hs.pending hinv hdone)
  obtain rfl : idx'.insideDedupIndex = heap' := Except.ok.inj (hupdate.symm.trans hupdate')
  have hcounted : s.cmSketch = idx'.cmSketch := by
    rw [hsketch, hpasses.sketch, h.counted]
  refine ⟨sim', { statuses := s.dedupStatusRecord.map some
                  queries := (outsideQueries cs s.dedupStatusRecord).map ChunkInfo.fpStr
                  heap := sim'.newMinHeap.layout }, ?_, ?_,
    ⟨hafter.alike, hafter.k, hafter.counted.trans hcounted, hcounted ▸ hs.counts,
      hcounted ▸ hafter.bounded⟩⟩
  · simp only [processBatchFp, hmin', hscan, bind, Except.bind]
    rw [hlast]
    rfl
  · have hquery := queries_eq p hlooked hs.statuses
    rw [← hinv.query] at hquery
    simp only [indexTrace, IndexTrace.encrypted, hs.statuses, hquery, hafter.alike.layout]

end Sim

/-! ## Whole runs -/

open Sim

/-- Runs from states that agree. -/
theorem runs_agree_from {rowPos : Bytes → Nat → Nat} {p : Params} (batches : List (Batch p))
    {seen : List Bytes} {idx : FreqIndex} {out : OutIndex} {n : Naive} {sim : Sim.FreqIndex}
    {traces : List IndexTrace} (hrel : FreqRel p idx out n.stored)
    (hagree : Agree rowPos p seen idx sim)
    (hwrap : CMSketch.Unwrapped rowPos idx.cmSketch.depth
      (seen ++ batches.flatMap Batch.fingerprints)) :
    ∃ s sim' traces',
      tracedRun rowPos ((idx, out, n.upload), traces.map (IndexTrace.encrypted p)) batches =
        .ok (s, traces'.map (IndexTrace.encrypted p)) ∧
      Sim.run rowPos (sim, traces) (batches.map Batch.infos) = .ok (sim', traces') := by
  induction batches generalizing seen idx out n sim traces with
  | nil => exact ⟨_, sim, traces, rfl, rfl⟩
  | cons b batches ih =>
      have hsplit : seen ++ (b :: batches).flatMap Batch.fingerprints =
          seen ++ b.data.map p.crypto.generateHash ++ batches.flatMap Batch.fingerprints := by
        rw [List.flatMap_cons, List.append_assoc]
        rfl
      rw [hsplit] at hwrap
      obtain ⟨idx₁, out₁, looked, hrun, hrel₁, hpasses⟩ :=
        processOneBatchAt_refines rowPos hrel (b.msg n.upload.client.sessionKey)
      rw [recvChunks_msg] at hrun hrel₁ hpasses
      have hsmall : b.data.length < 2 ^ 32 := by
        rw [Batch.data, List.length_map]
        exact b.length_lt
      obtain ⟨sim₁, trace, hsim, htrace, hagree₁⟩ :=
        hagree.batch hrel.heap hsmall hwrap.left hpasses
      have hdepth : idx₁.cmSketch.depth = idx.cmSketch.depth := by
        rw [hpasses.sketch, sketchSectionAt_depth]
      rw [← hdepth] at hwrap
      obtain ⟨s, sim', traces', hrest, hrest'⟩ := @ih _ _ _ _ _ (traces ++ [trace]) hrel₁ hagree₁
        hwrap
      refine ⟨s, sim', traces', ?_, ?_⟩
      · rw [List.map_append, List.map_singleton, ← htrace] at hrest
        rw [tracedRun, List.foldlM_cons, hrun]
        exact hrest
      · rw [List.map_cons, Sim.run, List.foldlM_cons]
        change (do
          let r ← processBatchFp rowPos sim
            (b.data.map fun chunk => ⟨p.crypto.generateHash chunk, chunk.length⟩)
          _) >>= _ = _
        rw [hsim]
        exact hrest'

/-- **The simulator models the system.**  Over any batches, with any row positions that
both sketches use and as long as no counter wraps, enclave and simulator give every
position the same status, ask outside in the same order, and end every batch with the
same heap in the same layout.  The chunk hash of `p` is any function, so the batches are
any batches of fingerprints. -/
theorem simulator_agrees (rowPos : Bytes → Nat → Nat) (p : Params) (u : Upload)
    (batches : List (Batch p))
    (hwrap : CMSketch.Unwrapped rowPos FreqIndex.init.cmSketch.depth
      (batches.flatMap Batch.fingerprints)) :
    ∃ s sim traces,
      tracedRun rowPos ((.init, ∅, u), []) batches =
        .ok (s, traces.map (IndexTrace.encrypted p)) ∧
      Sim.run rowPos (.init p.topThreshold, []) (batches.map Batch.infos) = .ok (sim, traces) :=
  @runs_agree_from rowPos p batches [] .init ∅ { stored := ∅, upload := u } _ [] (freqRel_init p)
    (agree_init rowPos p) hwrap

/-- Two chunks, the second like the first. -/
def twinBatch : Batch smallParams where
  chunks := [⟨[1], by decide⟩, ⟨[1], by decide⟩]
  length_le := by decide
  length_lt := by decide

/-- The same batch twice: its fingerprint is new, then in the heap. -/
theorem simulator_agrees_twins :
    ∃ s sim traces,
      tracedRun (fun fp i => (fp.length + i) % 8) ((.init, ∅, smallUpload), [])
          [twinBatch, twinBatch] =
        .ok (s, traces.map (IndexTrace.encrypted smallParams)) ∧
      Sim.run (fun fp i => (fp.length + i) % 8) (.init smallParams.topThreshold, [])
        [twinBatch.infos, twinBatch.infos] = .ok (sim, traces) :=
  simulator_agrees _ smallParams smallUpload [twinBatch, twinBatch] (by
    intro i j _
    exact List.countP_le_length.trans_lt (by decide))

end Debe
