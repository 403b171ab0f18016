import Debe.Segments
import Mathlib.Data.List.DropRight
import Mathlib.Data.List.Sort

/-!
# Sparse indexing

`EcallSparseIndex` samples fingerprints, the hooks, and keeps for each hook the IDs of the
last manifests that were written for segments with it.  A new segment is compared with a few
of the manifests that its hooks name, the champions.  If it brings a new chunk, a manifest
of all its chunks is written under a new ID, which joins the lists of its hooks.

Which champions are chosen depends on the order in which a hash map is iterated and on a
sort that is not stable; both are parameters.  `manifests` is a history that no function
reads: each manifest written, with the hooks of its segment.
-/

namespace Debe

open FirstBinding

/-- `SPARSE_SAMPLE_RATE`. -/
def sparseSampleRate : Nat := 6

/-- `SPARSE_CHAMPION_NUM`. -/
def sparseChampionNum : Nat := 10

/-- `SPARSE_MANIFIEST_CAP_NUM`. -/
def sparseManifiestCapNum : Nat := 10

/-- `tmpCandidateSegmentList`: how often each manifest is named. -/
abbrev CandidateList := AList (fun _ : Bytes => UInt32)

/-- What a start of sparse indexing uses: besides the rest, the order in which the candidates
are iterated, and the sort by decreasing numbers, which leaves ties open. -/
structure SparseParams extends SegmentParams where
  iterateCandidates : CandidateList → List (Bytes × UInt32)
  iterateCandidates_perm : ∀ m, (iterateCandidates m).Perm (m.entries.map fun e => (e.1, e.2))
  sort : List (Bytes × UInt32) → List (Bytes × UInt32)
  sort_perm : ∀ l, (sort l).Perm l
  sort_sorted : ∀ l, (sort l).Pairwise fun a b => b.2 ≤ a.2

/-- A manifest that was written, and the hooks of its segment. -/
structure ManifestNote where
  id : Bytes
  hooks : List ChunkHash

/-- The index object with its store of manifests. -/
structure SparseIndex where
  hookIndex : HookIndex
  store : OutIndex
  draws : Nat
  manifests : List ManifestNote

/-- `IsHook`: the first bits of the fingerprint are not set. -/
def isHook (chunkFp : ChunkHash) : Bool :=
  (List.range sparseSampleRate).all fun checkedBit =>
    let tmp := chunkFp.1.getD (checkedBit / 8) 0
    let mask : UInt8 := 1 <<< UInt8.ofNat (7 - checkedBit % 8)
    tmp &&& mask = 0

/-- Six zero bits make a hook. -/
example : isHook ⟨3 :: List.replicate 31 255, rfl⟩ = true ∧
    isHook ⟨4 :: List.replicate 31 0, rfl⟩ = false := by decide

/-- `insert` of a `std::set<string>`. -/
def insertHook (currentHookSet : List ChunkHash) (hookFp : ChunkHash) : List ChunkHash :=
  if hookFp ∈ currentHookSet then currentHookSet
  else currentHookSet.orderedInsert (fun a b => a.1 ≤ b.1) hookFp

/-- The loop body of the search for hooks. -/
def addHook (currentHookSet : List ChunkHash) (m : SegmentMeta) : List ChunkHash :=
  if isHook m.chunkHash then insertHook currentHookSet m.chunkHash else currentHookSet

/-- The hooks of a segment. -/
def hookSet (metadata : List SegmentMeta) : List ChunkHash :=
  metadata.foldl addHook []

/-- The loop body of `UpdateCandidateList`. -/
def countCandidate (candidateSegmentList : CandidateList) (id : Bytes) : CandidateList :=
  match candidateSegmentList.lookup id with
  | some num => candidateSegmentList.insert id (num + 1)
  | none => candidateSegmentList.insert id 1

/-- `UpdateCandidateList`. -/
def updateCandidateList (inputSet : List Bytes) (candidateSegmentList : CandidateList) :
    CandidateList :=
  inputSet.foldl countCandidate candidateSegmentList

/-- The candidates of a hook join those of the hooks before it. -/
def collectCandidates (hookIndex : HookIndex) (candidateSegmentList : CandidateList)
    (hook : ChunkHash) : CandidateList :=
  match hookIndex.lookup hook.1 with
  | some ids => updateCandidateList ids candidateSegmentList
  | none => candidateSegmentList

/-- `LoadManifiest`. -/
def loadManifiest (p : SegmentParams) (store : OutIndex) (dedupIndex : DedupIndex)
    (segmentID : Bytes) : Except Fault DedupIndex :=
  match readBinValues p store segmentID with
  | some es => .ok (insertAll dedupIndex (es.map BinValue.binding))
  | none => ocallSGXExitError
      "EcallSparseIndex: cannot find the manifest in the manifest store."

/-- `FindChampionSegment`. -/
def findChampionSegment (p : SparseParams) (store : OutIndex)
    (candidateSegmentList : CandidateList) (dedupIndex : DedupIndex) :
    Except Fault DedupIndex :=
  let totalCandidateSegment := candidateSegmentList.entries.length
  if totalCandidateSegment = 0 then .ok dedupIndex
  else if totalCandidateSegment < sparseChampionNum then
    ((p.iterateCandidates candidateSegmentList).map Prod.fst).foldlM
      (loadManifiest p.toSegmentParams store) dedupIndex
  else
    let tmpList := p.sort (p.iterateCandidates candidateSegmentList)
    ((tmpList.take sparseChampionNum).map Prod.fst).foldlM
      (loadManifiest p.toSegmentParams store) dedupIndex

/-- `UpdateManifiestStore`. -/
def updateManifiestStore (p : SegmentParams) (store : OutIndex) (manifestID : Bytes)
    (currentBinValueBuffer : List BinValue) : OutIndex :=
  writeBinValues p store manifestID currentBinValueBuffer

/-- The loop body of `UpdateHookIndex`. -/
def updateHook (manifest : Bytes) (hookIndex : HookIndex) (hook : ChunkHash) : HookIndex :=
  match hookIndex.lookup hook.1 with
  | some ids =>
      if ids.length < sparseManifiestCapNum then hookIndex.insert hook.1 (ids ++ [manifest])
      else hookIndex.insert hook.1 (ids.tail ++ [manifest])
  | none => hookIndex.insert hook.1 [manifest]

/-- `UpdateHookIndex`. -/
def updateHookIndex (manifest : Bytes) (currentHookSet : List ChunkHash) (hookIndex : HookIndex) :
    HookIndex :=
  currentHookSet.foldl (updateHook manifest) hookIndex

/-- What the loop over the chunks threads. -/
structure ManifestState where
  dedup : DedupState
  manifiestValueBuffer : List BinValue
  uniqueSegmentFlag : Bool

/-- The loop of sparse indexing: every chunk joins the new manifest. -/
def manifestStep (p : Params) (buffer : Bytes) (s : ManifestState) (m : SegmentMeta) :
    Except Fault ManifestState := do
  let unique := (s.dedup.tmpDedupIndex.lookup m.chunkHash).isNone
  let r ← dedupChunk p buffer s.dedup m
  let tmpBinValue : BinValue := { chunkFp := m.chunkHash, address := r.1 }
  return {
    dedup := r.2
    manifiestValueBuffer := s.manifiestValueBuffer ++ [tmpBinValue]
    uniqueSegmentFlag := s.uniqueSegmentFlag || unique }

/-- `EcallSparseIndex::ProcessOneSegment`. -/
def SparseIndex.processOneSegment (p : SparseParams) (segment : Segment) (idx : SparseIndex)
    (u : Upload) : Except Fault (SparseIndex × Upload) := do
  let currentHookSet := hookSet segment.metadata
  let tmpCandidateSegmentList := currentHookSet.foldl (collectCandidates idx.hookIndex) ∅
  let tmpDedupIndex ← findChampionSegment p idx.store tmpCandidateSegmentList ∅
  let s ← segment.metadata.foldlM (manifestStep p.toParams segment.buffer)
    { dedup := { tmpDedupIndex := tmpDedupIndex, offset := 0, upload := u }
      manifiestValueBuffer := []
      uniqueSegmentFlag := false }
  if s.uniqueSegmentFlag then
    let manifest := (p.segmentID idx.draws).1
    return ({
      hookIndex := updateHookIndex manifest currentHookSet idx.hookIndex
      store := updateManifiestStore p.toSegmentParams idx.store manifest s.manifiestValueBuffer
      draws := idx.draws + 1
      manifests := idx.manifests ++ [{ id := manifest, hooks := currentHookSet }] },
      s.dedup.upload)
  else
    return (idx, s.dedup.upload)

/-! ## Hooks -/

theorem nodup_insertHook {set : List ChunkHash} (h : set.Nodup) (fp : ChunkHash) :
    (insertHook set fp).Nodup := by
  unfold insertHook
  split
  · exact h
  · rename_i hmem
    exact (List.perm_orderedInsert _ fp set).nodup_iff.mpr (List.nodup_cons.mpr ⟨hmem, h⟩)

/-- A set has each hook once. -/
theorem nodup_hookSet (metadata : List SegmentMeta) : (hookSet metadata).Nodup := by
  refine List.foldlRecOn metadata addHook List.nodup_nil fun set hset m _ => ?_
  unfold addHook
  split
  · exact nodup_insertHook hset _
  · exact hset

/-- The last IDs of a history, if there are any. -/
def recent (history : List Bytes) : Option (List Bytes) :=
  if history = [] then none else some (history.rtake sparseManifiestCapNum)

/-- The manifests that were inserted for a hook, in order. -/
def insertedFor (manifests : List ManifestNote) (hook : Bytes) : List Bytes :=
  (manifests.filter fun e => hook ∈ e.hooks.map Subtype.val).map ManifestNote.id

/-- What the list of a hook becomes. -/
def pushID (manifest : Bytes) : Option (List Bytes) → List Bytes
  | some ids =>
      if ids.length < sparseManifiestCapNum then ids ++ [manifest] else ids.tail ++ [manifest]
  | none => [manifest]

theorem updateHook_eq (manifest : Bytes) (m : HookIndex) (hook : ChunkHash) :
    updateHook manifest m hook = m.insert hook.1 (pushID manifest (m.lookup hook.1)) := by
  unfold updateHook pushID
  cases m.lookup hook.1 with
  | none => rfl
  | some ids =>
      dsimp only
      split <;> rfl

/-- One more in a list of the last ones. -/
theorem rtake_push {α : Type} (history : List α) (x : α) (n : Nat) :
    (if (history.rtake (n + 1)).length < n + 1 then history.rtake (n + 1) ++ [x]
      else (history.rtake (n + 1)).tail ++ [x]) = (history ++ [x]).rtake (n + 1) := by
  rw [List.rtake_concat_succ]
  unfold List.rtake
  rw [List.length_drop]
  split
  · rename_i hlt
    have hall : history.length - (n + 1) = history.length - n := by omega
    rw [hall]
  · rename_i hfull
    have hone : history.length - (n + 1) + 1 = history.length - n := by omega
    rw [List.tail_drop, hone]

/-- **The list of a hook** goes on with the history. -/
theorem recent_push (history : List Bytes) (manifest : Bytes) :
    recent (history ++ [manifest]) = some (pushID manifest (recent history)) := by
  have hne : history ++ [manifest] ≠ [] := by simp
  rw [recent, if_neg hne]
  cases history with
  | nil => rfl
  | cons x history =>
      have hx : x :: history ≠ [] := List.cons_ne_nil x history
      rw [recent, if_neg hx, pushID]
      exact congrArg some (rtake_push (x :: history) manifest 9).symm

/-- Every hook of the set is pushed once, the others stay. -/
theorem lookup_updateHookIndex {manifest : Bytes} {set : List ChunkHash} (h : set.Nodup)
    (m : HookIndex) (hook : Bytes) :
    (updateHookIndex manifest set m).lookup hook =
      if hook ∈ set.map Subtype.val then some (pushID manifest (m.lookup hook))
      else m.lookup hook := by
  induction set generalizing m with
  | nil => rfl
  | cons k set ih =>
      obtain ⟨hk, hset⟩ := List.nodup_cons.mp h
      have hkmem : k.1 ∉ set.map Subtype.val := fun hmem => by
        obtain ⟨j, hj, hjk⟩ := List.mem_map.mp hmem
        exact hk (Subtype.ext hjk ▸ hj)
      change (updateHookIndex manifest set (updateHook manifest m k)).lookup hook = _
      rw [ih hset, updateHook_eq]
      by_cases hhook : hook = k.1
      · subst hhook
        rw [if_neg hkmem, AList.lookup_insert, if_pos (List.mem_map_of_mem List.mem_cons_self)]
      · rw [AList.lookup_insert_ne hhook]
        simp only [List.map_cons, List.mem_cons, hhook, false_or]

/-! ## Champions -/

/-- Whatever holds of the IDs of all lists holds of the candidates. -/
theorem candidates_of_lists {P : Bytes → Prop} {hookIndex : HookIndex}
    (h : ∀ hook ids, hookIndex.lookup hook = some ids → ∀ id ∈ ids, P id)
    (hooks : List ChunkHash) :
    ∀ id ∈ hooks.foldl (collectCandidates hookIndex) ∅, P id := by
  have hcount : ∀ (c : CandidateList) (id : Bytes), P id → (∀ j ∈ c, P j) →
      ∀ j ∈ countCandidate c id, P j := by
    intro c id hid hc j hj
    have hmem : j = id ∨ j ∈ c := by
      unfold countCandidate at hj
      split at hj
      · exact (AList.mem_insert _).mp hj
      · exact (AList.mem_insert _).mp hj
    exact hmem.elim (fun hji => hji ▸ hid) (hc j)
  refine List.foldlRecOn (motive := fun c : CandidateList => ∀ id ∈ c, P id) hooks _
    (fun id hid => absurd hid (AList.notMem_empty id)) fun c hc hook _ => ?_
  unfold collectCandidates
  split
  · rename_i ids hids
    exact List.foldlRecOn (motive := fun c : CandidateList => ∀ id ∈ c, P id) ids _ hc
      fun c hc id hid => hcount c id (h _ ids hids id hid) hc
  · exact hc

/-- A manifest in the store, all of whose addresses are those of saved chunks. -/
def ManifestRight (p : SegmentParams) (store : OutIndex) (u : Upload) (id : Bytes) : Prop :=
  ∃ es, readBinValues p store id = some es ∧ ∀ e ∈ es, e.recorded ∈ u.disk.saved

/-- Loading manifests takes no exit. -/
theorem loadManifiests_spec {p : SegmentParams} {store : OutIndex} {u : Upload}
    {dedupIndex : DedupIndex} (hsaved : SavedIn u dedupIndex) {ids : List Bytes}
    (hids : ∀ id ∈ ids, ManifestRight p store u id) :
    ∃ m, ids.foldlM (loadManifiest p store) dedupIndex = .ok m ∧ SavedIn u m := by
  refine Loops.foldlM_ok (P := fun _ m => SavedIn u m) hsaved ?_
  rintro pre id rest m hcut hm
  obtain ⟨es, hread, hes⟩ := hids id (by simp [hcut])
  refine ⟨_, by rw [loadManifiest, hread], fun k a hk => ?_⟩
  rcases lookup_insertAll_cases hk with hold | hnew
  · exact hm k a hold
  · obtain ⟨e, he, hbinding⟩ := List.mem_map.mp (List.of_mem_dlookup hnew)
    cases hbinding
    exact hes e he

/-- **The champions**, whichever they are, are manifests of the store. -/
theorem findChampionSegment_spec {p : SparseParams} {store : OutIndex} {u : Upload}
    {candidates : CandidateList}
    (h : ∀ id ∈ candidates, ManifestRight p.toSegmentParams store u id) :
    ∃ m, findChampionSegment p store candidates ∅ = .ok m ∧ SavedIn u m := by
  have hempty : SavedIn u ∅ := by
    intro k a hk
    rw [AList.lookup_empty] at hk
    cases hk
  have hiterate : ∀ e ∈ p.iterateCandidates candidates,
      ManifestRight p.toSegmentParams store u e.1 := by
    intro e he
    obtain ⟨x, hx, rfl⟩ := List.mem_map.mp ((p.iterateCandidates_perm candidates).mem_iff.mp he)
    exact h x.1 (AList.mem_keys.mp (List.mem_map_of_mem hx))
  unfold findChampionSegment
  dsimp only
  split
  · exact ⟨∅, rfl, hempty⟩
  · split
    · refine loadManifiests_spec hempty fun id hid => ?_
      obtain ⟨e, he, rfl⟩ := List.mem_map.mp hid
      exact hiterate e he
    · refine loadManifiests_spec hempty fun id hid => ?_
      obtain ⟨e, he, rfl⟩ := List.mem_map.mp hid
      exact hiterate e ((p.sort_perm _).mem_iff.mp (List.mem_of_mem_take he))

/-! ## The invariant -/

/-- **The loop over a segment**, whose manifest lists the address of each chunk. -/
theorem manifestLoop_spec {p : Params} {segment : Segment} {chunks : List Chunk}
    (hseg : segment.Holds p chunks) {s : DedupState} (hstart : s.offset = 0) :
    ∃ s', segment.metadata.foldlM (manifestStep p segment.buffer) ⟨s, [], false⟩ = .ok s' ∧
      Deduped p s s'.manifiestValueBuffer s'.dedup ∧
      s'.manifiestValueBuffer.map BinValue.chunkFp = chunks.map fun c => p.fingerprint c.1 := by
  rw [hseg.metadata, List.foldlM_map]
  obtain ⟨s', hrun, h⟩ := Loops.foldlM_ok (l := chunks) (s := (⟨s, [], false⟩ : ManifestState))
    (f := fun s c => manifestStep p segment.buffer s (chunkMeta p c.1))
    (P := fun pre s' => DedupedUpTo p s pre s'.manifiestValueBuffer s'.dedup) (.start hstart) (by
      intro pre chunk rest s' hcut h
      obtain ⟨a, s'', hrun, hnext⟩ := h.next hseg hcut
      exact ⟨_, by rw [manifestStep, hrun]; rfl, hnext⟩)
  exact ⟨s', hrun, h.run, h.fps⟩

/-- What holds after `m` segments when at most `n` IDs are drawn. -/
structure SparseInv (p : SparseParams) (n m : Nat) (idx : SparseIndex) (u : Upload) : Prop where
  manifests : ∀ e ∈ idx.manifests, ManifestRight p.toSegmentParams idx.store u e.id
  hooks : ∀ hook, idx.hookIndex.lookup hook = recent (insertedFor idx.manifests hook)
  ids : idx.manifests.map ManifestNote.id =
    (List.range idx.draws).map fun i => (p.segmentID i).1
  draws : idx.draws ≤ m
  fresh : ∀ i, idx.draws ≤ i → i < n → (p.segmentID i).1 ∉ idx.store

variable {p : SparseParams} {n m : Nat} {idx : SparseIndex} {u : Upload} {segment : Segment}
variable {chunks : List Chunk} {store : OutIndex}

theorem mem_of_readBinValues {p : SegmentParams} {id : Bytes} {es : List BinValue}
    (h : readBinValues p store id = some es) : id ∈ store := by
  obtain ⟨cipher, hcipher, -⟩ := Option.map_eq_some_iff.mp h
  exact AList.lookup_isSome.mp (Option.isSome_iff_exists.mpr ⟨cipher, hcipher⟩)

/-- With a longer log. -/
theorem ManifestRight.mono {p : SegmentParams} {u' : Upload} {id : Bytes}
    (h : ManifestRight p store u id) (hsaved : u.disk.saved <+: u'.disk.saved) :
    ManifestRight p store u' id := by
  obtain ⟨es, hread, hes⟩ := h
  exact ⟨es, hread, fun e he => hsaved.subset (hes e he)⟩

/-- With a longer log, and one more manifest under a new ID. -/
theorem ManifestRight.write {p : SegmentParams} {u' : Upload} {id new : Bytes}
    (h : ManifestRight p store u id) (hsaved : u.disk.saved <+: u'.disk.saved)
    (hnew : new ∉ store) (es : List BinValue) :
    ManifestRight p (updateManifiestStore p store new es) u' id := by
  obtain ⟨es', hread, hes'⟩ := h
  have hne : id ≠ new := fun hid => hnew (hid ▸ mem_of_readBinValues hread)
  exact ⟨es', (readBinValues_write_ne hne es).trans hread, fun e he => hsaved.subset (hes' e he)⟩

/-- Each ID in the list of a hook was inserted for it. -/
theorem mem_recent {history ids : List Bytes} (h : recent history = some ids) :
    ids = history.rtake sparseManifiestCapNum ∧ ids ⊆ history := by
  unfold recent at h
  split at h
  · cases h
  · obtain rfl := Option.some.inj h
    exact ⟨rfl, List.drop_subset _ _⟩

theorem mem_insertedFor {manifests : List ManifestNote} {hook id : Bytes}
    (h : id ∈ insertedFor manifests hook) : ∃ e ∈ manifests, e.id = id := by
  obtain ⟨e, he, hid⟩ := List.mem_map.mp h
  exact ⟨e, List.mem_of_mem_filter he, hid⟩

/-- Every ID in the list of a hook is that of a manifest in the store. -/
theorem SparseInv.listed (h : SparseInv p n m idx u) {hook : Bytes} {ids : List Bytes}
    (hids : idx.hookIndex.lookup hook = some ids) :
    ∀ id ∈ ids, ManifestRight p.toSegmentParams idx.store u id := by
  rw [h.hooks] at hids
  intro id hid
  obtain ⟨e, he, rfl⟩ := mem_insertedFor ((mem_recent hids).2 hid)
  exact h.manifests e he

theorem insertedFor_append (manifests : List ManifestNote) (note : ManifestNote) (hook : Bytes) :
    insertedFor (manifests ++ [note]) hook =
      if hook ∈ note.hooks.map Subtype.val then insertedFor manifests hook ++ [note.id]
      else insertedFor manifests hook := by
  unfold insertedFor
  rw [List.filter_append, List.map_append]
  by_cases hmem : hook ∈ note.hooks.map Subtype.val
  · simp only [hmem, if_true, List.filter_cons, decide_true, List.filter_nil, List.map_cons,
      List.map_nil]
  · simp only [hmem, if_false, List.filter_cons, decide_false, Bool.false_eq_true, List.filter_nil,
      List.map_nil, List.append_nil]

/-- A segment with a new chunk: its manifest is written and joins the lists of its hooks. -/
theorem SparseInv.write (h : SparseInv p n m idx u) {u' : Upload}
    (hsaved : u.disk.saved <+: u'.disk.saved) (hm : m < n)
    (hids : ∀ i < n, ∀ j < n, p.segmentID i = p.segmentID j → i = j) {hooks : List ChunkHash}
    (hhooks : hooks.Nodup) {es : List BinValue} (hes : ∀ e ∈ es, e.recorded ∈ u'.disk.saved) :
    SparseInv p n (m + 1)
      { hookIndex := updateHookIndex (p.segmentID idx.draws).1 hooks idx.hookIndex
        store := updateManifiestStore p.toSegmentParams idx.store (p.segmentID idx.draws).1 es
        draws := idx.draws + 1
        manifests := idx.manifests ++ [{ id := (p.segmentID idx.draws).1, hooks := hooks }] }
      u' where
  manifests := by
    have hnew := h.fresh idx.draws le_rfl (h.draws.trans_lt hm)
    intro e he
    rcases List.mem_append.mp he with he | he
    · exact (h.manifests e he).write hsaved hnew es
    · rw [List.mem_singleton.mp he]
      exact ⟨es, readBinValues_write es, hes⟩
  hooks := by
    intro hook
    rw [lookup_updateHookIndex hhooks, insertedFor_append, h.hooks]
    split
    · exact (recent_push _ _).symm
    · rfl
  ids := by
    rw [List.map_append, h.ids, List.range_succ, List.map_append]
    rfl
  draws := Nat.succ_le_succ h.draws
  fresh := by
    intro i hi hin hmem
    rcases (AList.mem_insert _).mp hmem with hid | hmem
    · have heq := hids i hin _ (h.draws.trans_lt hm) (Subtype.ext hid)
      exact absurd heq (Nat.ne_of_gt hi)
    · exact h.fresh i (Nat.le_of_succ_le hi) hin hmem

/-- The invariant does not depend on the rest of the upload. -/
theorem SparseInv.mono (h : SparseInv p n m idx u) {m' : Nat} (hm : m ≤ m') {u' : Upload}
    (hsaved : u.disk.saved <+: u'.disk.saved) : SparseInv p n m' idx u' where
  manifests := fun e he => (h.manifests e he).mono hsaved
  hooks := h.hooks
  ids := h.ids
  draws := h.draws.trans hm
  fresh := h.fresh

/-- **One segment.**  No exit is taken, and the invariant is kept. -/
theorem SparseInv.processOneSegment (h : SparseInv p n m idx u)
    (hseg : segment.Holds p.toParams chunks) (hm : m < n)
    (hids : ∀ i < n, ∀ j < n, p.segmentID i = p.segmentID j → i = j) :
    ∃ r, idx.processOneSegment p segment u = .ok r ∧ SparseInv p n (m + 1) r.1 r.2 ∧
      Recorded p.toParams u chunks r.2 := by
  obtain ⟨tmp, hfind, htmp⟩ := findChampionSegment_spec
    (candidates_of_lists (fun _ _ => h.listed) (hookSet segment.metadata))
  obtain ⟨s, hrun, hdedup, hfps⟩ := manifestLoop_spec hseg
    (s := { tmpDedupIndex := tmp, offset := 0, upload := u }) rfl
  have hrecorded := hdedup.recorded htmp hfps
  cases hflag : s.uniqueSegmentFlag with
  | false =>
      refine ⟨(idx, s.dedup.upload), ?_, h.mono (Nat.le_succ m) hdedup.prefix_saved, hrecorded⟩
      simp only [SparseIndex.processOneSegment, hfind, hrun, hflag, bind, Except.bind, pure,
        Except.pure, Bool.false_eq_true, if_false]
  | true =>
      refine ⟨(_, s.dedup.upload), ?_, h.write hdedup.prefix_saved hm hids
        (nodup_hookSet segment.metadata) fun e he => hdedup.recorded_saved htmp he, hrecorded⟩
      simp only [SparseIndex.processOneSegment, hfind, hrun, hflag, bind, Except.bind, pure,
        Except.pure, if_true]

/-! ## Runs of a server -/

/-- A server with sparse indexing, and the upload of the client that is served. -/
structure SparseServer where
  index : SparseIndex
  upload : Upload

/-- A new start with a store that may hold other things. -/
def SparseServer.init (store : OutIndex) (u : Upload) : SparseServer where
  index := { hookIndex := ∅, store := store, draws := 0, manifests := [] }
  upload := u

/-- One event. -/
def SparseServer.step (p : SparseParams) (s : SparseServer) :
    SegmentEvent → Except Fault SparseServer
  | .segment segment => do
      let r ← s.index.processOneSegment p segment s.upload
      return { index := r.1, upload := r.2 }
  | .other u => .ok { s with upload := s.upload.between u }

theorem sparseInv_init (hfresh : ∀ i < n, (p.segmentID i).1 ∉ store) :
    SparseInv p n 0 (SparseServer.init store u).index u where
  manifests := nofun
  hooks := fun _ => rfl
  ids := rfl
  draws := le_rfl
  fresh := fun i _ hin => hfresh i hin

/-- A run from any state between two segments. -/
theorem SparseInv.run {s : SparseServer} {events : List SegmentEvent}
    (h : SparseInv p n m s.index s.upload)
    (hholds : ∀ segment ∈ segmentsOf events, ∃ chunks, segment.Holds p.toParams chunks)
    (hn : m + (segmentsOf events).length ≤ n)
    (hids : ∀ i < n, ∀ j < n, p.segmentID i = p.segmentID j → i = j) :
    ∃ s', events.foldlM (SparseServer.step p) s = .ok s' ∧
      SparseInv p n (m + (segmentsOf events).length) s'.index s'.upload := by
  refine run_segments (P := fun seen (s' : SparseServer) =>
    SparseInv p n (m + seen.length) s'.index s'.upload)
    h ?_ ?_
  · intro seen u s₁ hinv
    exact ⟨{ s₁ with upload := s₁.upload.between u }, rfl,
      hinv.mono le_rfl (List.prefix_refl _)⟩
  · intro seen segment rest s₁ hsplit hinv
    rw [hsplit] at hholds hn
    rw [List.length_append, List.length_cons] at hn
    obtain ⟨chunks, hseg⟩ := hholds segment (by simp)
    obtain ⟨r, hstep, hinv', -⟩ := hinv.processOneSegment hseg (by omega) hids
    rw [List.length_append, List.length_singleton, ← Nat.add_assoc]
    exact ⟨_, Loops.bind_eq_ok.mpr ⟨r, hstep, rfl⟩, hinv'⟩

/-- The list of a hook: the last manifests that were inserted for it, at most as many as the
cap, all different, each in the store. -/
def HookRight (p : SparseParams) (s : SparseServer) (hook : Bytes) (ids : List Bytes) : Prop :=
  ids = (insertedFor s.index.manifests hook).rtake sparseManifiestCapNum ∧
  ids.length ≤ sparseManifiestCapNum ∧ ids.Nodup ∧
  ∀ id ∈ ids, ∃ es, readBinValues p.toSegmentParams s.index.store id = some es

theorem SparseInv.hookRight {s : SparseServer} (h : SparseInv p n m s.index s.upload) (hm : m ≤ n)
    (hids : ∀ i < n, ∀ j < n, p.segmentID i = p.segmentID j → i = j) {hook : Bytes}
    {ids : List Bytes} (hlookup : s.index.hookIndex.lookup hook = some ids) :
    HookRight p s hook ids := by
  have hlisted := h.listed hlookup
  rw [h.hooks] at hlookup
  obtain ⟨rfl, -⟩ := mem_recent hlookup
  have hall : (s.index.manifests.map ManifestNote.id).Nodup := by
    rw [h.ids]
    refine List.Nodup.map_on (fun i hi j hj heq => ?_) List.nodup_range
    rw [List.mem_range] at hi hj
    have hdraws := h.draws.trans hm
    exact hids i (hi.trans_le hdraws) j (hj.trans_le hdraws) (Subtype.ext heq)
  have hsub : (insertedFor s.index.manifests hook).Sublist
      (s.index.manifests.map ManifestNote.id) := List.filter_sublist.map _
  refine ⟨rfl, ?_, (hall.sublist hsub).sublist (List.drop_sublist _ _), fun id hid => ?_⟩
  · rw [List.rtake, List.length_drop]
    omega
  · obtain ⟨es, hread, -⟩ := hlisted id hid
    exact ⟨es, hread⟩

/-- **Sparse indexing is correct.**  In a server run from empty, whatever the segments and
whichever champions are chosen, no exit is taken.  A segment gives, chunk by chunk, the address
of a saved chunk with the same fingerprint; the list of a hook has the last manifests inserted
for it, all in the store; and every address in a manifest is that of a saved chunk with the
fingerprint beside it. -/
theorem sparse_indexing_correct (p : SparseParams) (store : OutIndex) (u : Upload)
    (pre post : List SegmentEvent) (hseg : segment.Holds p.toParams chunks)
    (hholds : ∀ t ∈ segmentsOf (pre ++ .segment segment :: post), ∃ cs, t.Holds p.toParams cs)
    (hfresh : FreshIDs p.toSegmentParams store
      (segmentsOf (pre ++ .segment segment :: post)).length) :
    ∃ s s₁ s', pre.foldlM (SparseServer.step p) (.init store u) = .ok s ∧
      s.step p (.segment segment) = .ok s₁ ∧
      post.foldlM (SparseServer.step p) s₁ = .ok s' ∧
      Recorded p.toParams s.upload chunks s₁.upload ∧
      (∀ hook ids, s'.index.hookIndex.lookup hook = some ids → HookRight p s' hook ids) ∧
      ∀ e ∈ s'.index.manifests,
        ManifestRight p.toSegmentParams s'.index.store s'.upload e.id := by
  rw [segmentsOf_mid] at hholds hfresh
  have hlen : (segmentsOf pre ++ [segment] ++ segmentsOf post).length =
      (segmentsOf pre).length + 1 + (segmentsOf post).length := by
    simp only [List.length_append, List.length_singleton]
  obtain ⟨s, hpre, hinv⟩ := (sparseInv_init hfresh.notMem).run (s := .init store u)
    (fun t (ht : t ∈ segmentsOf pre) => hholds t (by simp [ht])) (by omega) hfresh.inj
  obtain ⟨r, hstep, hinv₁, hrecorded⟩ := hinv.processOneSegment hseg (by omega) hfresh.inj
  obtain ⟨s', hpost, hinv'⟩ := hinv₁.run (s := { index := r.1, upload := r.2 })
    (fun t (ht : t ∈ segmentsOf post) => hholds t (by simp [ht])) (by omega) hfresh.inj
  exact ⟨s, _, s', hpre, Loops.bind_eq_ok.mpr ⟨r, hstep, rfl⟩, hpost, hrecorded,
    fun hook ids hlookup => hinv'.hookRight (by omega) hfresh.inj hlookup, hinv'.manifests⟩

/-- The small configuration, with a stable sort. -/
def smallSparseParams : SparseParams where
  toSegmentParams := smallSegmentParams
  iterateCandidates m := m.entries.map fun e => (e.1, e.2)
  iterateCandidates_perm _ := .refl _
  sort l := l.mergeSort fun a b => decide (b.2 ≤ a.2)
  sort_perm l := List.mergeSort_perm l _
  sort_sorted l := by
    have htrans : ∀ a b c : Bytes × UInt32, decide (b.2 ≤ a.2) → decide (c.2 ≤ b.2) →
        decide (c.2 ≤ a.2) := fun a b c hab hbc =>
      decide_eq_true (UInt32.le_trans (of_decide_eq_true hbc) (of_decide_eq_true hab))
    have htotal : ∀ a b : Bytes × UInt32, decide (b.2 ≤ a.2) || decide (a.2 ≤ b.2) := fun a b => by
      rw [Bool.or_eq_true, decide_eq_true_iff, decide_eq_true_iff]
      exact UInt32.le_total b.2 a.2
    have hsorted := List.pairwise_mergeSort htrans htotal l
    exact hsorted.imp of_decide_eq_true

/-- One segment of two equal chunks, processed twice. -/
theorem sparse_indexing_correct_small :
    let chunks : List Chunk := [⟨[1, 2, 3], by decide⟩, ⟨[1, 2, 3], by decide⟩]
    let segment := segmentWith smallParams chunks
    ∃ s s₁, SparseServer.step smallSparseParams (.init ∅ smallUpload) (.segment segment) = .ok s ∧
      s.step smallSparseParams (.segment segment) = .ok s₁ ∧
      Recorded smallParams s.upload chunks s₁.upload := by
  intro chunks segment
  have hsegs : ∀ t ∈ [segment, segment], t = segment := by simp
  obtain ⟨s, s₁, s', hpre, hstep, -, hrecorded, -⟩ := sparse_indexing_correct
    smallSparseParams ∅ smallUpload [.segment segment] [] (segmentWith_holds smallParams chunks)
    (fun t ht => ⟨chunks, hsegs t ht ▸ segmentWith_holds smallParams chunks⟩)
    (freshIDs_small (by decide))
  exact ⟨s, s₁, Loops.foldlM_singleton_ok.mp hpre, hstep, hrecorded⟩

end Debe
