import Debe.FreqServerRuns
import Debe.HeapOps
import Debe.Lib.TwoRuns

/-!
# Batches after a restart

An index that was loaded from what another one sealed has the same vector and the same
items, the same counters wherever a hash can fall, and other numbers only in the two
statistics of the chunks found inside, which no batch reads.  Every pass of a batch does
the same with both, in either variant, so every batch shows the same: the same faults, the
same out-enclave index and the same upload, and again two such indexes.
-/

namespace Debe

open TwoRuns Sealed

/-! ## The heap -/

namespace EntryHeap

variable {h h' : EntryHeap}

theorem Same.size (hs : h.Same h') : h'.size = h.size := congrArg List.length hs.heap

theorem Same.contains (hs : h.Same h') (key : Bytes) : h'.contains key = h.contains key := by
  rw [EntryHeap.contains, EntryHeap.contains, decide_eq_decide]
  exact hs.mem_iff key

theorem Same.alike (hs : h.Same h') : h.Alike h' where
  heap := hs.heap.symm
  items := fun k => by rw [hs.lookup k]

/-- An item is its frequency and position with its address. -/
theorem item_ext {x y : HeapItem} (hbare : bareItem x = bareItem y)
    (haddress : x.address = y.address) : x = y := by
  obtain ⟨_, _, _⟩ := x
  obtain ⟨_, _, _⟩ := y
  cases hbare
  cases haddress
  rfl

/-- Heaps that are alike and have the same addresses are the same. -/
theorem Alike.same (ha : h.Alike h') (hentry : ∀ k, h'.entry k = h.entry k) : h.Same h' where
  heap := ha.heap.symm
  lookup := by
    intro k
    have hitems := ha.items k
    have haddresses := hentry k
    unfold EntryHeap.entry at haddresses
    cases hx : h.index.lookup k with
    | none =>
        rw [hx, Option.map_none] at hitems
        exact Option.map_eq_none_iff.mp hitems.symm
    | some x =>
        rw [hx, Option.map_some] at hitems haddresses
        obtain ⟨y, hy, hbare⟩ := Option.map_eq_some_iff.mp hitems.symm
        rw [hy, Option.map_some] at haddresses
        rw [hy, item_ext hbare (congrArg Prod.snd (Option.some.inj haddresses))]

/-- **An allowed call** does the same to both. -/
theorem Same.apply (hs : h.Same h') (hinv : h.Inv) {op : HeapOp} (hop : op.Allowed h) :
    ∃ r r', op.apply h = some r ∧ op.apply h' = some r' ∧ r.Same r' ∧ r.Inv := by
  have hinv' := hs.inv hinv
  cases op with
  | add key value =>
      have hnew : key ∉ h'.index := fun hmem => hop ((hs.mem_iff key).mp hmem)
      obtain ⟨r, hrun, hr, -, hentries⟩ := hinv.add hop value
      obtain ⟨r₁, hrun₁, -, -, hentries₁⟩ := hinv'.add hnew value
      obtain ⟨r', hrun', halike⟩ := hs.alike.add (rfl : bareItem value = bareItem value) hrun
      obtain rfl : r₁ = r' := Option.some.inj (hrun₁.symm.trans hrun')
      refine ⟨r, r₁, hrun, hrun', halike.same fun k => ?_, hr⟩
      rw [hentries₁, hentries, hs.entry]
  | update key freq =>
      obtain ⟨⟨f, a⟩, hold⟩ := Option.isSome_iff_exists.mp (mem_index_iff.mp hop)
      obtain ⟨r, hrun, hr, -, hentries⟩ := hinv.update hold freq
      obtain ⟨r₁, hrun₁, -, -, hentries₁⟩ := hinv'.update ((hs.entry key).trans hold) freq
      obtain ⟨r', hrun', halike⟩ := hs.alike.update hrun
      obtain rfl : r₁ = r' := Option.some.inj (hrun₁.symm.trans hrun')
      refine ⟨r, r₁, hrun, hrun', halike.same fun k => ?_, hr⟩
      rw [hentries₁, hentries, hs.entry]
  | pop =>
      have hsize : 2 ≤ h'.heap.length := hs.heap ▸ hop
      obtain ⟨r, t, hrun, ht, hr, -, hentries⟩ := hinv.pop hop
      obtain ⟨r₁, t₁, hrun₁, ht₁, -, -, hentries₁⟩ := hinv'.pop hsize
      obtain rfl : t = t₁ := by
        rw [hs.heap, ht] at ht₁
        exact Option.some.inj ht₁
      obtain ⟨r', hrun', halike⟩ := hs.alike.pop hrun
      obtain rfl : r₁ = r' := Option.some.inj (hrun₁.symm.trans hrun')
      refine ⟨r, r₁, hrun, hrun', halike.same fun k => ?_, hr⟩
      rw [hentries₁, hentries, hs.entry]

end EntryHeap

/-- The same heap on both sides, in order. -/
structure HeapTwins (h h' : EntryHeap) : Prop where
  same : h.Same h'
  inv : h.Inv

section Heap

variable {p : Params} {h h' : EntryHeap}

theorem HeapTwins.apply (ht : HeapTwins h h') {op : HeapOp} (hop : op.Allowed h) :
    Agree HeapTwins (inRange (op.apply h)) (inRange (op.apply h')) := by
  obtain ⟨r, r', hrun, hrun', hsame, hinv⟩ := ht.same.apply ht.inv hop
  rw [hrun, hrun']
  exact ⟨hsame, hinv⟩

theorem minFreq_twins (hs : h.Same h') : minFreq p h' = minFreq p h := by
  rw [minFreq, minFreq, hs.size, hs.topEntry]

theorem lookupStep_twins (hs : h.Same h') (freq : Nat) (s : LookupState) (e : InQueryEntry) :
    lookupStep p h' freq s e = lookupStep p h freq s e := by
  unfold lookupStep
  rw [EntryHeap.getPriority, EntryHeap.getPriority, hs.lookup]

/-- The lookup section. -/
theorem lookupSection_twins (hs : h.Same h') (es : List InQueryEntry) :
    lookupSection p h' es = lookupSection p h es := by
  have hstep : lookupStep p h' = lookupStep p h := by
    funext freq s e
    exact lookupStep_twins hs freq s e
  rw [lookupSection, lookupSection, minFreq_twins hs, hstep]

theorem checkIfAddToHeap_twins (hs : h.Same h') (chunkFreq : Nat) :
    checkIfAddToHeap p h' chunkFreq = checkIfAddToHeap p h chunkFreq := by
  rw [checkIfAddToHeap, checkIfAddToHeap, hs.size, hs.topEntry]

/-- `AddChunkToHeap` of a key that is not there. -/
theorem addChunkToHeap_twins (ht : HeapTwins h h') {fp : Bytes} (hnew : fp ∉ h.index)
    (chunkFreq : Nat) (chunkAddr : RecipeEntry) :
    Agree HeapTwins (addChunkToHeap p h chunkFreq chunkAddr fp)
      (addChunkToHeap p h' chunkFreq chunkAddr fp) := by
  have htwo := p.two_le_topThreshold
  have hroom : Agree (fun r r' => HeapTwins r r' ∧ fp ∉ r.index) (makeRoom p h)
      (makeRoom p h') := by
    rw [makeRoom, makeRoom, ht.same.size]
    split
    · rename_i hfull
      have hsize : 2 ≤ h.size := hfull ▸ htwo
      obtain ⟨r, r', hrun, hrun', hsame, hinv⟩ :=
        ht.same.apply ht.inv (show HeapOp.pop.Allowed h from hsize)
      obtain ⟨r₁, t, hrun₁, -, -, -, hentries⟩ := ht.inv.pop hsize
      obtain rfl : r = r₁ := Option.some.inj (hrun.symm.trans hrun₁)
      change Agree _ (inRange (HeapOp.pop.apply h)) (inRange (HeapOp.pop.apply h'))
      rw [hrun, hrun']
      exact ⟨⟨hsame, hinv⟩,
        EntryHeap.not_mem_of_entries (EntryHeap.entries_of_removed hentries) hnew⟩
    · exact ⟨ht, hnew⟩
  unfold addChunkToHeap
  refine hroom.bind ?_
  rintro r r' ⟨hr, hnew'⟩
  exact hr.apply
    (show (HeapOp.add fp { address := chunkAddr, chunkFreq := chunkFreq, idx := 0 }).Allowed r
      from hnew')

/-- The body of the heap update loop. -/
theorem updateHeapStep_twins (ht : HeapTwins h h') (e : InQueryEntry) :
    Agree HeapTwins (updateHeapStep p h e) (updateHeapStep p h' e) := by
  unfold updateHeapStep
  split
  · rw [checkIfAddToHeap_twins ht.same]
    refine (agree_of_eq rfl fun _ => rfl : Agree (· = ·) _ _).bind ?_
    rintro b _ rfl
    cases b with
    | false => exact ht
    | true =>
        rw [if_pos rfl, if_pos rfl, ht.same.contains]
        by_cases hin : e.chunkHash ∈ h.index
        · have hcontains : h.contains e.chunkHash = true := decide_eq_true hin
          rw [if_pos hcontains, if_pos hcontains]
          exact ht.apply (show (HeapOp.update e.chunkHash e.chunkFreq).Allowed h from hin)
        · have hcontains : ¬h.contains e.chunkHash = true := fun hc => hin (of_decide_eq_true hc)
          rw [if_neg hcontains, if_neg hcontains]
          exact addChunkToHeap_twins ht hin e.chunkFreq e.chunkAddr
  · exact ht

end Heap

/-! ## The sketch -/

/-- The same counters wherever a hash can fall. -/
structure SketchTwins (s s' : CMSketch) : Prop where
  width : s'.width = s.width
  depth : s'.depth = s.depth
  pos : 0 < s.width
  counters : ∀ i j, i < s.depth → j < s.width → s'.counterArray i j = s.counterArray i j

theorem SketchTwins.estimate {s s' : CMSketch} (ht : SketchTwins s s') (chunkHash : Bytes) :
    s'.estimate chunkHash = s.estimate chunkHash := by
  rw [CMSketch.estimate, CMSketch.estimate, ht.depth, pos_of_width ht.width]
  refine List.foldl_ext _ _ _ fun minVal i hi => ?_
  have hcolumn : s.pos chunkHash i < s.width := Nat.mod_lt _ ht.pos
  rw [ht.counters i _ (List.mem_range.mp hi) hcolumn]

theorem SketchTwins.update {s s' : CMSketch} (ht : SketchTwins s s') (chunkHash : Bytes)
    (count : Nat) : SketchTwins (s.update chunkHash count) (s'.update chunkHash count) where
  width := ht.width
  depth := ht.depth
  pos := ht.pos
  counters := by
    intro i j hi hj
    have hsame := ht.counters i j hi hj
    simp only [CMSketch.update, ht.depth, pos_of_width ht.width, hsame]

/-- The sketch section. -/
theorem sketchSection_twins {s s' : CMSketch} (ht : SketchTwins s s') (es : List InQueryEntry) :
    SketchTwins (sketchSection s es).1 (sketchSection s' es).1 ∧
      (sketchSection s' es).2 = (sketchSection s es).2 := by
  induction es generalizing s s' with
  | nil => exact ⟨ht, rfl⟩
  | cons e es ih =>
      obtain ⟨hrest, hentries⟩ := ih (ht.update e.chunkHash 1)
      refine ⟨hrest, ?_⟩
      rw [sketchSection, sketchSection]
      simp only [hentries, (ht.update e.chunkHash 1).estimate]

/-! ## The store loop -/

/-- The state of the store loop without the two statistics. -/
def StoreState.uncounted (s : StoreState) : StoreState :=
  { s with insideDedupChunkNum := 0, insideDedupDataSize := 0 }

/-- The body of the store loop does not read the statistics. -/
theorem storeStep_uncounted {p : Params} {s s' : StoreState}
    (hs : s.uncounted = s'.uncounted) (ec : InQueryEntry × Bytes) :
    Agree (fun r r' => r.uncounted = r'.uncounted) (storeStep p s ec) (storeStep p s' ec) := by
  obtain ⟨done, outDone, outQuery, upload, _, _⟩ := s
  obtain ⟨_, _, _, _, _, _⟩ := s'
  cases hs
  unfold storeStep
  dsimp only
  cases ec.1.dedupFlag with
  | none => rfl
  | some flag =>
      cases flag with
      | duplicate => rfl
      | tmpDuplicate | tmpUnique =>
          cases done[ec.1.chunkAddr.offset.toNat]? with
          | none => rfl
          | some _ => rfl
      | unique =>
          cases outQuery with
          | nil => rfl
          | cons q rest =>
              cases hq : q.dedupFlag with
              | none => simp only [hq]; rfl
              | some flag => cases flag <;> simp only [hq] <;> rfl

/-- The store loop. -/
theorem storeLoop_uncounted (p : Params) (idx idx' : FreqIndex) (query : List OutQueryEntry)
    (es : List InQueryEntry) (chunks : List Bytes) (u : Upload) :
    Agree (fun r r' => r.uncounted = r'.uncounted) (storeLoop p idx query es chunks u)
      (storeLoop p idx' query es chunks u) :=
  agree_foldlM rfl fun _ _ ec _ hs => storeStep_uncounted hs ec

/-! ## Batches -/

/-- Two indexes that no batch can tell apart. -/
structure FreqTwins (idx idx' : FreqIndex) : Prop where
  sketch : SketchTwins idx.cmSketch idx'.cmSketch
  heap : HeapTwins idx.insideDedupIndex idx'.insideDedupIndex

/-- What a batch leaves and shows. -/
def SameOutcome (r r' : (FreqIndex × OutIndex) × Upload) : Prop :=
  FreqTwins r.1.1 r'.1.1 ∧ r'.1.2 = r.1.2 ∧ r'.2 = r.2

/-- The batched variant. -/
theorem processOneBatch_twins {p : Params} {idx idx' : FreqIndex} (ht : FreqTwins idx idx')
    (out : OutIndex) (msg : UploadMsg) (u : Upload) :
    Agree (fun r r' => FreqTwins r.1 r'.1 ∧ r'.2 = r.2) (processOneBatch p idx out msg u)
      (processOneBatch p idx' out msg u) := by
  obtain ⟨hsketch, hentries⟩ := sketchSection_twins ht.sketch
    ((recvChunks p u.client.sessionKey msg).map (hashEntry p))
  unfold processOneBatch
  simp only [hentries, lookupSection_twins ht.heap.same]
  refine (agree_of_eq rfl fun _ => rfl : Agree (· = ·) _ _).bind ?_
  rintro looked _ rfl
  refine (storeLoop_uncounted p idx idx' _ _ _ u).bind ?_
  intro stored stored' hstored
  obtain ⟨_, _, _, _, _, _⟩ := stored
  obtain ⟨_, _, _, _, _, _⟩ := stored'
  cases hstored
  refine (agree_foldlM ht.heap fun _ _ e _ hheap => updateHeapStep_twins hheap e).bind ?_
  intro heap heap' hheap
  exact ⟨⟨hsketch, hheap⟩, rfl⟩

/-- One chunk of the per-chunk variant. -/
theorem perChunkStep_twins {p : Params} {s s' : (FreqIndex × OutIndex) × Upload}
    (hs : SameOutcome s s') (chunk : Bytes) :
    Agree SameOutcome (perChunkStep p s chunk) (perChunkStep p s' chunk) := by
  obtain ⟨⟨idx, out⟩, u⟩ := s
  obtain ⟨⟨idx', _⟩, _⟩ := s'
  obtain ⟨ht, rfl, rfl⟩ := hs
  have hsketch := ht.sketch.update (p.crypto.generateHash chunk) 1
  unfold perChunkStep
  simp only [hsketch.estimate, minFreq_twins ht.heap.same, EntryHeap.getPriority,
    ht.heap.same.lookup]
  refine (agree_of_eq rfl fun _ => rfl : Agree (· = ·) _ _).bind ?_
  rintro freq _ rfl
  split
  · exact ⟨⟨hsketch, ht.heap⟩, rfl, rfl⟩
  · cases hitem : idx.insideDedupIndex.index.lookup (p.crypto.generateHash chunk) with
    | some item =>
        have hin : p.crypto.generateHash chunk ∈ idx.insideDedupIndex.index := by
          rw [← AList.lookup_isSome, hitem]
          rfl
        have hop : ∀ n, (HeapOp.update (p.crypto.generateHash chunk) n).Allowed
            idx.insideDedupIndex := fun _ => hin
        refine (ht.heap.apply (hop _)).bind ?_
        intro heap heap' hheap
        exact ⟨⟨hsketch, hheap⟩, rfl, rfl⟩
    | none =>
        refine (addChunkToHeap_twins ht.heap (AList.lookup_eq_none.mp hitem) _ _).bind ?_
        intro heap heap' hheap
        exact ⟨⟨hsketch, hheap⟩, rfl, rfl⟩

/-- A message in one of the two variants. -/
def processMsg (p : Params) (perChunk : Bool) (s : FreqIndex × OutIndex) (msg : UploadMsg)
    (u : Upload) : Except Fault ((FreqIndex × OutIndex) × Upload) :=
  if perChunk then (perChunkDesign p).processOneBatch (s, u) msg
  else (freqDesign p).processOneBatch (s, u) msg

/-- **A message** shows the same with both indexes. -/
theorem processMsg_twins {p : Params} {idx idx' : FreqIndex} (ht : FreqTwins idx idx')
    (out : OutIndex) (perChunk : Bool) (msg : UploadMsg) (u : Upload) :
    Agree SameOutcome (processMsg p perChunk (idx, out) msg u)
      (processMsg p perChunk (idx', out) msg u) := by
  cases perChunk with
  | true => exact agree_foldlM ⟨ht, rfl, rfl⟩ fun _ _ chunk _ hs => perChunkStep_twins hs chunk
  | false =>
      refine (processOneBatch_twins ht out msg u).bind ?_
      rintro ⟨idx₁, out₁, u₁⟩ ⟨idx₂, _, _⟩ ⟨ht₁, heq⟩
      cases heq
      exact ⟨ht₁, rfl, rfl⟩

/-- Messages one after the other, of any clients, collecting the uploads they lead to. -/
def laterMsgs (p : Params) (s : FreqIndex × OutIndex) (msgs : List (Bool × UploadMsg × Upload)) :
    Except Fault ((FreqIndex × OutIndex) × List Upload) :=
  msgs.foldlM (fun s m => do
    let r ← processMsg p m.1 s.1 m.2.1 m.2.2
    return (r.1, s.2 ++ [r.2])) (s, [])

/-- **Every later message** shows the same with both indexes. -/
theorem laterMsgs_twins {p : Params} {idx idx' : FreqIndex} (ht : FreqTwins idx idx')
    (out : OutIndex) (msgs : List (Bool × UploadMsg × Upload)) :
    Agree (fun r r' => FreqTwins r.1.1 r'.1.1 ∧ r'.1.2 = r.1.2 ∧ r'.2 = r.2)
      (laterMsgs p (idx, out) msgs) (laterMsgs p (idx', out) msgs) := by
  refine agree_foldlM ⟨ht, rfl, rfl⟩ ?_
  rintro ⟨⟨idx, out⟩, us⟩ ⟨⟨idx', out'⟩, us'⟩ m _ ⟨ht, hout, hus⟩
  obtain rfl : out' = out := hout
  obtain rfl : us' = us := hus
  refine (processMsg_twins ht out' m.1 m.2.1 m.2.2).bind ?_
  intro r r' hr
  exact ⟨hr.1, hr.2.1, congrArg (fun u => us' ++ [u]) hr.2.2⟩

/-! ## The sealed index -/

/-- Positions that fit `uint32_t` bound the number of entries. -/
theorem FreqIndex.Live.size_le {idx : FreqIndex} (h : idx.Live)
    (hidx : ∀ k item, idx.insideDedupIndex.index.lookup k = some item → item.idx < 2 ^ 32) :
    idx.insideDedupIndex.size ≤ 2 ^ 32 := by
  by_contra hmore
  have hlt : 2 ^ 32 < idx.insideDedupIndex.heap.length := Nat.lt_of_not_le hmore
  have hk := List.getElem?_eq_getElem hlt
  obtain ⟨item, hitem⟩ := h.inv.linked.lookup hk
  have hword := hidx _ item hitem
  rw [h.inv.back _ _ item hk hitem] at hword
  exact absurd hword (lt_irrefl _)

/-- What was loaded cannot be told from what was sealed. -/
theorem FreqIndex.Reloaded.twins {idx idx' : FreqIndex} (hre : idx.Reloaded idx')
    (h : idx.Live) : FreqTwins idx idx' where
  sketch :=
    { width := hre.width
      depth := hre.depth
      pos := by
        rw [h.width]
        exact Nat.succ_pos _
      counters := hre.counters }
  heap := ⟨hre.heap, h.inv⟩

/-- **The sealed frequency index.**  Whatever the counters and the entries of a heap in
order, `LoadDedupIndex` rebuilds from the files of `PersistDedupIndex` the counters, the
vector and the items with their positions, in the same process or a new one; and whatever
messages follow, in either variant and for any clients, they show the same as without the
restart. -/
theorem freq_index_persistence {idx : FreqIndex} (h : idx.Live)
    (hidx : ∀ k item, idx.insideDedupIndex.index.lookup k = some item → item.idx < 2 ^ 32)
    {s : Sealed} (hs : Closed s) (junk junk' : Nat → UInt8) (newProcess : Bool) :
    ∃ written idx' s', persistFreqIndex junk idx s = .ok written ∧
      loadFreqIndex junk' .init (if newProcess then written.newProcess else written) =
        .ok (idx', s') ∧ Closed s' ∧
      idx'.cmSketch.width = idx.cmSketch.width ∧ idx'.cmSketch.depth = idx.cmSketch.depth ∧
      (∀ i j, i < idx.cmSketch.depth → j < idx.cmSketch.width →
        idx'.cmSketch.counterArray i j = idx.cmSketch.counterArray i j) ∧
      idx'.insideDedupIndex.heap = idx.insideDedupIndex.heap ∧
      (∀ k, idx'.insideDedupIndex.index.lookup k = idx.insideDedupIndex.index.lookup k) ∧
      idx'.insideDedupIndex.Inv ∧
      ∀ (p : Params) (out : OutIndex) (msgs : List (Bool × UploadMsg × Upload)),
        Agree (fun r r' => FreqTwins r.1.1 r'.1.1 ∧ r'.1.2 = r.1.2 ∧ r'.2 = r.2)
          (laterMsgs p (idx, out) msgs) (laterMsgs p (idx', out) msgs) := by
  have hsize := h.size_le hidx
  let written := (s.put .sketch (sketchImages idx.cmSketch)).put .freqIndex
    (heapImages idx.insideDedupIndex)
  have hput : Closed written := (hs.put _ _).put _ _
  have hclosed := hput.start newProcess
  obtain ⟨idx', ⟨st, hload, hst⟩, hre⟩ := h.reload hsize hclosed (by rw [start_files]; rfl)
    (by rw [start_files]; rfl) junk'
  exact ⟨written, idx', _, persistFreqIndex_eq (h.sealable hsize) hs junk, hload,
    hclosed.reading hst, hre.width, hre.depth, hre.counters, hre.heap.heap, hre.heap.lookup,
    hre.heap.inv h.inv, fun _ out msgs => laterMsgs_twins (hre.twins h) out msgs⟩

/-- The index after a first chunk. -/
theorem freq_index_persistence_small :
    ∃ s : FreqServer, (FreqServer.init smallParams).step
        (.batch (batchB.msg smallUpload.client.sessionKey) smallUpload) = .ok s ∧
      ∃ written idx' s', persistFreqIndex (fun _ => 0) s.index s.sealed = .ok written ∧
        loadFreqIndex (fun _ => 0) .init written.newProcess = .ok (idx', s') ∧
        idx'.insideDedupIndex.heap = s.index.insideDedupIndex.heap := by
  obtain ⟨s, hstep, hrunning, hfollows⟩ := (FreqServer.running_init smallParams).batch
    (batchB.msg smallUpload.client.sessionKey) smallUpload
  have htop : s.params.topThreshold = 2 := hfollows.top rfl
  obtain ⟨written, idx', s', hpersist, hload, -, -, -, -, hheap, -⟩ :=
    freq_index_persistence hrunning.live (by
      intro k item hitem
      have hsize := hrunning.size
      have hmem : k ∈ s.index.insideDedupIndex.heap := by
        rw [hrunning.live.inv.linked.mem_iff, ← AList.lookup_isSome, hitem]
        rfl
      obtain ⟨i, hi⟩ := List.mem_iff_getElem?.mp hmem
      have hlt := (List.getElem?_eq_some_iff.mp hi).1
      rw [hrunning.live.inv.back i k item hi hitem]
      rw [htop] at hsize
      unfold EntryHeap.size at hsize
      omega) hrunning.closed (fun _ => 0) (fun _ => 0) true
  exact ⟨s, hstep, written, idx', s', hpersist, hload, hheap⟩

end Debe
