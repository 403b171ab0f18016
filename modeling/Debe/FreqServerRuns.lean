import Debe.FreqServer

/-!
# Runs of the frequency index

What holds of the heap of top-k entries over a server's life: that it keeps the best of
what was observed, that the fast path, which does not look into the heap for a
fingerprint below its least frequency, never misses, and how large it may grow.
-/

namespace Debe

open TopK Runs

/-- `t` is the least frequency of the heap, and `TopEntry` reads it. -/
def EntryHeap.MinIs (h : EntryHeap) (t : Nat) : Prop :=
  h.topEntry = some t ∧ IsLeast {f | ∃ k, h.freqs k = some f} t

theorem EntryHeap.Inv.minIs {h : EntryHeap} (hinv : h.Inv) (hpos : 0 < h.size) :
    ∃ t, h.MinIs t := by
  obtain ⟨k, hk⟩ : ∃ k, h.heap[0]? = some k := ⟨h.heap[0], List.getElem?_eq_getElem hpos⟩
  obtain ⟨t, a, htop, hentry⟩ := hinv.linked.top hk
  refine ⟨t, htop, ⟨k, EntryHeap.freqs_eq_some.mpr ⟨a, hentry⟩⟩, ?_⟩
  rintro f ⟨j, hj⟩
  exact hinv.floor htop j f hj

/-- Whatever was observed has a last estimate. -/
theorem lastObserved_isSome {observed : List (Bytes × Nat)} {fp : Bytes}
    (h : fp ∈ observed.map Prod.fst) : ∃ f, lastObserved observed fp = some f := by
  have hkeep : ∀ (l : List (Bytes × Nat)) (seen : Bytes → Option Nat),
      (seen fp).isSome ∨ fp ∈ l.map Prod.fst → (l.foldl note seen fp).isSome := by
    intro l
    induction l with
    | nil =>
        intro seen hseen
        rcases hseen with hseen | hmem
        · exact hseen
        · cases hmem
    | cons x l ih =>
        intro seen hseen
        refine ih _ ?_
        by_cases hx : fp = x.1
        · left
          rw [hx, note, Function.update_self]
          rfl
        · rw [note, Function.update_of_ne hx]
          exact hseen.imp_right fun hmem =>
            (List.mem_cons.mp hmem).resolve_left hx
  exact Option.isSome_iff_exists.mp (hkeep observed _ (.inr h))

/-- A batch of the small configuration with the chunk `B`. -/
def batchB : Batch smallParams where
  chunks := [⟨[0x42], by decide⟩]
  length_le := by decide
  length_lt := by decide

namespace FreqServer

/-! ## Runs with one configuration -/

/-- With the same parameters a start has room for the heap. -/
theorem Running.roomy {s : FreqServer} (h : s.Running) {e : FreqEvent}
    (hsame : s.sameStart e = true) : s.roomy e = true := by
  cases e with
  | batch msg u => rfl
  | chunks msg u => rfl
  | restart start => exact decide_eq_true (h.size.trans_eq (of_decide_eq_true hsame).symm)

/-- Between the first start of `p` and the state `s`, all starts had the parameters of
`p`.  Without wraps the index tracks its history. -/
structure Steady (p : Params) (s : FreqServer) : Prop where
  running : s.Running
  top : s.params.topThreshold = p.topThreshold
  tracking : NoWrap s.observed → s.Tracking

theorem steady_init (p : Params) : Steady p (init p) where
  running := running_init p
  top := rfl
  tracking := fun _ => tracks_init p

/-- One event with the same parameters. -/
theorem Steady.step {p : Params} {s s' : FreqServer} (h : Steady p s) {e : FreqEvent}
    (hstep : restrict sameStart next s e = some s') :
    Steady p s' ∧ s.observed <+: s'.observed ∧
      (NoWrap s'.observed →
        NoLower s.params s.index.insideDedupIndex s'.index.insideDedupIndex) := by
  obtain ⟨hsame, hnext⟩ := restrict_eq_some.mp hstep
  obtain ⟨s₁, hrun, hrunning, hobserved, htop, htracks⟩ :=
    h.running.step (h.running.roomy hsame)
  obtain rfl : s₁ = s' := Except.ok.inj (hrun.symm.trans (next_eq_some.mp hnext))
  have hleft : NoWrap s₁.observed → NoWrap s.observed := by
    obtain ⟨more, hmore⟩ := hobserved
    rw [← hmore]
    exact NoWrap.left
  refine ⟨⟨hrunning, (htop hsame).trans h.top, fun hwrap => ?_⟩, hobserved, fun hwrap => ?_⟩
  · exact (htracks hsame hwrap (h.tracking (hleft hwrap))).1
  · exact (htracks hsame hwrap (h.tracking (hleft hwrap))).2

/-- Every run with the parameters of `p`. -/
theorem steady_of_reaches {p : Params} {s s' : FreqServer}
    (hrun : Reaches (restrict sameStart next) s s') (h : Steady p s) : Steady p s' :=
  hrun.invariant (fun _ _ _ h hstep => (h.step hstep).1) h

/-- From a state with a full heap on, the heap stays full and its least frequency does
not sink. -/
theorem noLower_of_reaches {p : Params} {s s' : FreqServer}
    (hrun : Reaches (restrict sameStart next) s s') (h : Steady p s)
    (hwrap : NoWrap s'.observed) :
    NoLower p s.index.insideDedupIndex s'.index.insideDedupIndex := by
  induction hrun with
  | refl => exact .refl p _
  | @tail mid last hfirst hnext ih =>
      obtain ⟨e, he⟩ := hnext
      have hmid := steady_of_reaches hfirst h
      obtain ⟨-, ⟨more, hmore⟩, hlower⟩ := hmid.step he
      have hleft : NoWrap mid.observed := by
        rw [← hmore] at hwrap
        exact hwrap.left
      have hlast := hlower hwrap
      unfold NoLower at hlast ⊢
      rw [hmid.top] at hlast
      exact NoLower.trans (ih hleft) hlast

/-- No event fails. -/
theorem Steady.progress {p : Params} {s : FreqServer} (h : Steady p s) {e : FreqEvent}
    (hsame : s.sameStart e = true) : ∃ s', restrict sameStart next s e = some s' := by
  obtain ⟨s', hrun, -⟩ := h.running.step (h.running.roomy hsame)
  exact ⟨s', restrict_eq_some.mpr ⟨hsame, next_eq_some.mpr hrun⟩⟩

/-- What a message in the batched variant makes of the server. -/
theorem step_batch_eq {s s' : FreqServer} {msg : UploadMsg} {u : Upload}
    (h : s.step (.batch msg u) = .ok s') :
    ∃ r, processOneBatch s.params s.index s.outIndex msg u = .ok r ∧
      s' = { s with
        index := r.1
        outIndex := r.2.1
        observed := s.observed ++
          observe s.index.cmSketch (recvHashes s.params u.client.sessionKey msg)
        batchNum := s.batchNum + 1 } := by
  obtain ⟨r, hrun, hret⟩ := Loops.bind_eq_ok.mp h
  exact ⟨r, hrun, (Except.ok.inj hret).symm⟩

/-- Few observations do not wrap a counter. -/
theorem noWrap_of_length {observed : List (Bytes × Nat)} (h : observed.length < 2 ^ 32) :
    NoWrap observed := by
  intro i j _
  refine List.countP_le_length.trans_lt ?_
  rwa [List.length_map]

/-- The first batch of the small configuration: the chunk `B`. -/
theorem first_batch_small : ∃ s, restrict sameStart next (init smallParams)
      (.batch (batchB.msg smallUpload.client.sessionKey) smallUpload) = some s ∧
    s.observed.map Prod.fst = [smallParams.crypto.generateHash [0x42]] ∧ NoWrap s.observed := by
  obtain ⟨s, hs⟩ := (steady_init smallParams).progress
    (e := .batch (batchB.msg smallUpload.client.sessionKey) smallUpload) rfl
  obtain ⟨-, hnext⟩ := restrict_eq_some.mp hs
  obtain ⟨r, -, rfl⟩ := step_batch_eq (next_eq_some.mp hnext)
  have hseen : List.map Prod.fst ((init smallParams).observed ++
      observe (init smallParams).index.cmSketch (recvHashes smallParams
        smallUpload.client.sessionKey (batchB.msg smallUpload.client.sessionKey))) =
      [smallParams.crypto.generateHash [0x42]] := by
    rw [List.map_append, observe_fst, recvHashes, recvChunks_msg]
    rfl
  refine ⟨_, hs, hseen, noWrap_of_length ?_⟩
  have hlen := congrArg List.length hseen
  rw [List.length_map, List.length_singleton] at hlen
  exact hlen.trans_lt (by decide)

/-- **Top-k semantics.**  Over every run of batches, in either variant, and of restarts with
the same parameters: a heap entry has the last estimate observed for its fingerprint; a
fingerprint that was seen and is not in the heap stands behind a full heap; and the least
frequency of a full heap never sinks. -/
theorem topK_semantics {p : Params} {s : FreqServer}
    (hrun : Reaches (restrict sameStart next) (init p) s) (hwrap : NoWrap s.observed) :
    (∀ fp f a, s.index.insideDedupIndex.entry fp = some (f, a) →
      lastObserved s.observed fp = some f) ∧
    (∀ fp ∈ s.observed.map Prod.fst, fp ∉ s.index.insideDedupIndex.index →
      s.index.insideDedupIndex.size = p.topThreshold ∧
      ∃ f t, lastObserved s.observed fp = some f ∧ s.index.insideDedupIndex.MinIs t ∧ f ≤ t) ∧
    ∀ s', Reaches (restrict sameStart next) s s' → NoWrap s'.observed →
      s.index.insideDedupIndex.size = p.topThreshold →
      s'.index.insideDedupIndex.size = p.topThreshold ∧
      ∃ t t', s.index.insideDedupIndex.MinIs t ∧ s'.index.insideDedupIndex.MinIs t' ∧ t ≤ t' := by
  have hsteady := steady_of_reaches hrun (steady_init p)
  have hbest := (hsteady.tracking hwrap).best
  have hpos : ∀ h : EntryHeap, h.size = p.topThreshold → 0 < h.size := fun h hfull =>
    hfull ▸ Nat.zero_lt_two.trans_le p.two_le_topThreshold
  refine ⟨fun fp f a hentry => ?_, fun fp hseen hnot => ?_, fun s' hrun' hwrap' hfull => ?_⟩
  · exact hbest.best.last fp f (EntryHeap.freqs_eq_some.mpr ⟨a, hentry⟩)
  · obtain ⟨f, hf⟩ := lastObserved_isSome hseen
    obtain ⟨hfull, hfloor⟩ := hbest.best.rest fp f hf (EntryHeap.freqs_eq_none.mpr hnot)
    rw [hsteady.top] at hfull
    obtain ⟨t, ht⟩ := hbest.inv.minIs (hpos _ hfull)
    obtain ⟨k, hk⟩ := ht.2.1
    exact ⟨hfull, f, t, hf, ht, hfloor k t hk⟩
  · obtain ⟨hfull', hfloor⟩ := noLower_of_reaches hrun' hsteady hwrap' hfull
    obtain ⟨t, ht⟩ := hbest.inv.minIs (hpos _ hfull)
    obtain ⟨t', ht'⟩ := (steady_of_reaches hrun' hsteady).running.live.inv.minIs (hpos _ hfull')
    obtain ⟨k, hk⟩ := ht'.2.1
    exact ⟨hfull', t, t', ht, ht', hfloor t (fun j w hj => ht.2.2 ⟨j, hj⟩) k t' hk⟩

theorem topK_semantics_small :
    ∃ s, Reaches (restrict sameStart next) (init smallParams) s ∧
      s.observed.map Prod.fst = [smallParams.crypto.generateHash [0x42]] ∧
      ∀ fp f a, s.index.insideDedupIndex.entry fp = some (f, a) →
        lastObserved s.observed fp = some f := by
  obtain ⟨s, hs, hseen, hwrap⟩ := first_batch_small
  have hrun := reaches_of_step hs
  exact ⟨s, hrun, hseen, (topK_semantics hrun hwrap).1⟩

end FreqServer

/-! ## The fast path -/

/-- The top-k lookup section without the fast path: with zero for `minFreq` no estimate is
below it, and `Contains` is called for every hash that is new in the batch. -/
def lookupSectionAlways (p : Params) (heap : EntryHeap) (es : List InQueryEntry) :
    Except Fault LookupState :=
  es.foldlM (lookupStep p heap 0) { done := [], outQuery := [], localIndex := ∅ }

/-- One chunk of the per-chunk variant without the fast path: `Contains` comes first, and
`currentMinFreq` decides only whether a new chunk is added to the heap. -/
def perChunkStepAlways (p : Params) (s : (FreqIndex × OutIndex) × Upload) (chunk : Bytes) :
    Except Fault ((FreqIndex × OutIndex) × Upload) := do
  let idx := s.1.1
  let fp := p.crypto.generateHash chunk
  let cmSketch := idx.cmSketch.update fp 1
  let chunkFreq := cmSketch.estimate fp
  let currentMinFreq ← minFreq p idx.insideDedupIndex
  match idx.insideDedupIndex.getPriority fp with
  | some item =>
      let heap ← inRange (idx.insideDedupIndex.update fp chunkFreq)
      return (({ cmSketch := cmSketch
                 insideDedupIndex := heap
                 insideDedupChunkNum := idx.insideDedupChunkNum + 1
                 insideDedupDataSize := idx.insideDedupDataSize + chunk.length }, s.1.2),
        recordChunk p fp chunk.length item.address s.2)
  | none =>
      let r := readOrStore p p.crypto.aesCBCEnc p.crypto.aesCBCDec chunk s.1.2 s.2
      let heap ← if chunkFreq < currentMinFreq then .ok idx.insideDedupIndex
        else addChunkToHeap p idx.insideDedupIndex chunkFreq r.1 fp
      return (({ idx with cmSketch := cmSketch, insideDedupIndex := heap }, r.2.1),
        recordChunk p fp chunk.length r.1 r.2.2)

/-- A fingerprint whose estimate is below `minFreq` is not in the heap. -/
theorem Tracks.not_mem {p : Params} {idx : FreqIndex} {observed : List (Bytes × Nat)}
    (h : Tracks p idx observed) {m : Nat} (hm : minFreq p idx.insideDedupIndex = .ok m)
    {fp : Bytes} (hlt : idx.cmSketch.estimate fp < m) : fp ∉ idx.insideDedupIndex.index := by
  rcases minFreq_cases hm with ⟨-, htop⟩ | ⟨-, rfl⟩
  · rw [← EntryHeap.freqs_eq_none]
    cases hf : idx.insideDedupIndex.freqs fp with
    | none => rfl
    | some f =>
        have hle := h.best.inv.floor htop fp f hf
        have hbehind := h.behind fp f (h.best.best.last fp f hf)
        omega
  · exact absurd hlt (Nat.not_lt_zero _)

/-- One round of the lookup loop does not need the fast path. -/
theorem lookupStep_fast {p : Params} {heap : EntryHeap} {m : Nat} {s : LookupState}
    {e : InQueryEntry} (hmiss : e.chunkFreq < m → heap.getPriority e.chunkHash = none) :
    lookupStep p heap m s e = lookupStep p heap 0 s e := by
  unfold lookupStep
  split
  · rfl
  · rw [if_neg (Nat.not_lt_zero _)]
    split
    · rename_i hlt
      rw [hmiss hlt]
    · rfl

/-- The lookup section classifies alike without the fast path. -/
theorem lookupSection_fast {p : Params} {heap : EntryHeap} {m : Nat}
    (hm : minFreq p heap = .ok m) {es : List InQueryEntry}
    (hmiss : ∀ e ∈ es, e.chunkFreq < m → heap.getPriority e.chunkHash = none) :
    lookupSection p heap es = lookupSectionAlways p heap es := by
  have hloop : ∀ (es : List InQueryEntry) (s : LookupState),
      (∀ e ∈ es, e.chunkFreq < m → heap.getPriority e.chunkHash = none) →
      es.foldlM (lookupStep p heap m) s = es.foldlM (lookupStep p heap 0) s := by
    intro es
    induction es with
    | nil => exact fun _ _ => rfl
    | cons e es ih =>
        intro s hmiss
        rw [List.foldlM_cons, List.foldlM_cons, lookupStep_fast (hmiss e List.mem_cons_self)]
        refine bind_congr fun s' => ih s' fun x hx => hmiss x (List.mem_cons_of_mem _ hx)
  rw [lookupSection, hm]
  exact hloop es _ hmiss

/-- One chunk of the per-chunk variant does not need the fast path. -/
theorem perChunkStep_fast {p : Params} {s : (FreqIndex × OutIndex) × Upload} {chunk : Bytes}
    {m : Nat} (hm : minFreq p s.1.1.insideDedupIndex = .ok m)
    (hmiss : (s.1.1.cmSketch.update (p.crypto.generateHash chunk) 1).estimate
        (p.crypto.generateHash chunk) < m →
      s.1.1.insideDedupIndex.getPriority (p.crypto.generateHash chunk) = none) :
    perChunkStep p s chunk = perChunkStepAlways p s chunk := by
  simp only [perChunkStep, perChunkStepAlways, hm, bind, Except.bind, pure, Except.pure]
  split
  · rename_i hlt
    rw [hmiss hlt]
  · rfl

/-- The chunks of a message in the per-chunk variant do not need the fast path. -/
theorem perChunk_fast {p : Params} {s : FreqIndex × OutIndex} {n : Naive}
    (h : FreqRel p s.1 s.2 n.stored) {observed : List (Bytes × Nat)}
    (htracks : Tracks p s.1 observed) (chunks : List Bytes)
    (hwrap : CMSketch.Unwrapped s.1.cmSketch.pos s.1.cmSketch.depth
      (observed.map Prod.fst ++ chunks.map p.crypto.generateHash)) :
    chunks.foldlM (perChunkStep p) (s, n.upload) =
      chunks.foldlM (perChunkStepAlways p) (s, n.upload) := by
  induction chunks generalizing s n observed with
  | nil => rfl
  | cons chunk chunks ih =>
      rw [List.map_cons, List.append_cons] at hwrap
      obtain ⟨m, hm⟩ := minFreq_spec h.heap
      obtain ⟨s₁, hrun, hrel, hsketch, hchange⟩ := perChunkStep_change h chunk
      have hfast : perChunkStep p (s, n.upload) chunk =
          perChunkStepAlways p (s, n.upload) chunk := by
        refine perChunkStep_fast hm fun hlt => AList.lookup_eq_none.mpr (htracks.not_mem hm ?_)
        have hmem : (p.crypto.generateHash chunk, (s.1.cmSketch.update
            (p.crypto.generateHash chunk) 1).estimate (p.crypto.generateHash chunk)) ∈
            observe s.1.cmSketch [p.crypto.generateHash chunk] := List.mem_singleton_self _
        exact ((observe_between htracks.counts hwrap.left).2 _ hmem).1.trans_lt hlt
      obtain ⟨htracks₁, -⟩ := htracks.chunk hsketch hchange hwrap.left
      have hpos : s₁.1.cmSketch.pos = s.1.cmSketch.pos := by rw [hsketch, CMSketch.update_pos]
      have hdepth : s₁.1.cmSketch.depth = s.1.cmSketch.depth := by rw [hsketch]; rfl
      rw [Loops.foldlM_cons_ok hrun, Loops.foldlM_cons_ok (hfast ▸ hrun)]
      refine ih hrel htracks₁ ?_
      rw [hpos, hdepth, List.map_append, observe_fst]
      exact hwrap

namespace FreqServer

/-- **The fast path is sound.**  In every state of such a run a fingerprint whose estimate
is below `minFreq` is not in the heap; so the next message, in either variant, is treated
as it would be with `Contains` called every time. -/
theorem fast_path_sound {p : Params} {s : FreqServer}
    (hrun : Reaches (restrict sameStart next) (init p) s) (hwrap : NoWrap s.observed) :
    (∀ m, minFreq s.params s.index.insideDedupIndex = .ok m → ∀ fp,
      s.index.cmSketch.estimate fp < m → s.index.insideDedupIndex.contains fp = false) ∧
    ∀ msg (u : Upload), NoWrap (s.observed ++
        observe s.index.cmSketch (recvHashes s.params u.client.sessionKey msg)) →
      lookupSection s.params s.index.insideDedupIndex (sketchSection s.index.cmSketch
          ((recvChunks s.params u.client.sessionKey msg).map (hashEntry s.params))).2 =
        lookupSectionAlways s.params s.index.insideDedupIndex (sketchSection s.index.cmSketch
          ((recvChunks s.params u.client.sessionKey msg).map (hashEntry s.params))).2 ∧
      (recvChunks s.params u.client.sessionKey msg).foldlM (perChunkStep s.params)
          ((s.index, s.outIndex), u) =
        (recvChunks s.params u.client.sessionKey msg).foldlM (perChunkStepAlways s.params)
          ((s.index, s.outIndex), u) := by
  have hsteady := steady_of_reaches hrun (steady_init p)
  have htracks := hsteady.tracking hwrap
  obtain ⟨stored, hrel, -⟩ := hsteady.running.rel
  refine ⟨fun m hm fp hlt => ?_, fun msg u hnext => ⟨?_, ?_⟩⟩
  · rw [EntryHeap.contains, decide_eq_false_iff_not]
    exact htracks.not_mem hm hlt
  · obtain ⟨m, hm⟩ := minFreq_spec hrel.heap
    refine lookupSection_fast hm fun e he hlt => AList.lookup_eq_none.mpr (htracks.not_mem hm ?_)
    have hmem : e.observation ∈ observe s.index.cmSketch
        (recvHashes s.params u.client.sessionKey msg) := by
      have hobserve := (sketchSection_eq s.index.cmSketch
        ((recvChunks s.params u.client.sessionKey msg).map (hashEntry s.params))).2
      rw [List.map_map] at hobserve
      exact hobserve ▸ List.mem_map_of_mem he
    have hbetween := observe_between htracks.counts (hnext.unwrapped hsteady.running.live)
    exact (hbetween.2 _ hmem).1.trans_lt hlt
  · exact perChunk_fast (s := (s.index, s.outIndex)) (n := ⟨stored, u⟩) hrel htracks _
      (hnext.unwrapped hsteady.running.live)

theorem fast_path_sound_small :
    ∃ s, Reaches (restrict sameStart next) (init smallParams) s ∧
      s.observed.map Prod.fst = [smallParams.crypto.generateHash [0x42]] ∧
      ∀ m, minFreq s.params s.index.insideDedupIndex = .ok m → ∀ fp,
        s.index.cmSketch.estimate fp < m → s.index.insideDedupIndex.contains fp = false := by
  obtain ⟨s, hs, hseen, hwrap⟩ := first_batch_small
  have hrun := reaches_of_step hs
  exact ⟨s, hrun, hseen, (fast_path_sound hrun hwrap).1⟩

end FreqServer

/-! ## The bound -/

/-- A heap above the threshold is never popped: `AddChunkToHeap` makes room only when the
size is equal to it. -/
theorem updateHeapStep_overfull {p : Params} {heap heap' : EntryHeap} {e : InQueryEntry}
    (hinv : heap.Inv) (hover : p.topThreshold < heap.size)
    (hrun : updateHeapStep p heap e = .ok heap') : heap'.Inv ∧ heap.size ≤ heap'.size := by
  unfold updateHeapStep at hrun
  split at hrun
  · obtain ⟨b, -, hrun⟩ := Loops.bind_eq_ok.mp hrun
    cases b with
    | false =>
        cases hrun
        exact ⟨hinv, le_rfl⟩
    | true =>
        by_cases hmem : e.chunkHash ∈ heap.index
        · obtain ⟨⟨f, a⟩, hentry⟩ := Option.isSome_iff_exists.mp (EntryHeap.mem_index_iff.mp hmem)
          obtain ⟨heap₁, hupdate, hinv₁, hlen, -⟩ := hinv.update hentry e.chunkFreq
          simp only [EntryHeap.contains, hmem, decide_true, if_true, hupdate, inRange] at hrun
          cases hrun
          exact ⟨hinv₁, hlen.ge⟩
        · obtain ⟨heap₁, hadd, hinv₁, hlen, -⟩ :=
            hinv.add hmem { address := e.chunkAddr, chunkFreq := e.chunkFreq, idx := 0 }
          simp only [EntryHeap.contains, hmem, decide_false, Bool.false_eq_true, if_false, if_true,
            addChunkToHeap, makeRoom, hover.ne', bind, Except.bind, hadd, inRange] at hrun
          cases hrun
          exact ⟨hinv₁, (Nat.le_succ _).trans hlen.ge⟩
  · cases hrun
    exact ⟨hinv, le_rfl⟩

/-- So no batch brings it down. -/
theorem processOneBatch_overfull {p : Params} {idx : FreqIndex} {out : OutIndex}
    {msg : UploadMsg} {u : Upload} {r : FreqIndex × OutIndex × Upload}
    (hinv : idx.insideDedupIndex.Inv) (hover : p.topThreshold < idx.insideDedupIndex.size)
    (hrun : processOneBatch p idx out msg u = .ok r) :
    idx.insideDedupIndex.size ≤ r.1.insideDedupIndex.size := by
  obtain ⟨looked, -, hrun⟩ := Loops.bind_eq_ok.mp hrun
  obtain ⟨stored, -, hrun⟩ := Loops.bind_eq_ok.mp hrun
  obtain ⟨heap', hheap, hrun⟩ := Loops.bind_eq_ok.mp hrun
  cases hrun
  exact (Loops.foldlM_keeps (P := fun heap => heap.Inv ∧ idx.insideDedupIndex.size ≤ heap.size)
    ⟨hinv, le_rfl⟩ (by
      rintro heap e heap' ⟨hheap, hle⟩ hstep
      obtain ⟨hheap', hle'⟩ := updateHeapStep_overfull hheap (hover.trans_le hle) hstep
      exact ⟨hheap', hle.trans hle'⟩) hheap).2

/-- A chunk that the heap knows goes through, however large the heap is. -/
theorem updateHeapStep_known {p : Params} {heap : EntryHeap} {e : InQueryEntry}
    (hinv : heap.Inv) (hmem : e.chunkHash ∈ heap.index) :
    ∃ heap', updateHeapStep p heap e = .ok heap' := by
  obtain ⟨⟨f, a⟩, hentry⟩ := Option.isSome_iff_exists.mp (EntryHeap.mem_index_iff.mp hmem)
  obtain ⟨heap', hupdate, -⟩ := hinv.update hentry e.chunkFreq
  have hpos : 0 < heap.heap.length :=
    List.length_pos_of_mem ((hinv.linked.mem_iff _).mpr hmem)
  obtain ⟨t, ht, -⟩ := hinv.topEntry hpos
  obtain ⟨b, hb⟩ : ∃ b, checkIfAddToHeap p heap e.chunkFreq = .ok b := by
    unfold checkIfAddToHeap
    split
    · exact ⟨true, rfl⟩
    · exact ⟨decide (t ≤ e.chunkFreq), by
        simp [ht, inRange, bind, Except.bind, pure, Except.pure]⟩
  unfold updateHeapStep
  split
  · cases b with
    | false => exact ⟨heap, by simp [hb, bind, Except.bind, pure, Except.pure]⟩
    | true =>
        exact ⟨heap', by simp [hb, EntryHeap.contains, hmem, inRange, hupdate, bind, Except.bind]⟩
  · exact ⟨heap, rfl⟩

/-- A message with one chunk that the heap knows, after a start with fewer places. -/
theorem processOneBatch_known {p : Params} {idx : FreqIndex} {out : OutIndex} {msg : UploadMsg}
    {u : Upload} {chunk : Bytes} (hinv : idx.insideDedupIndex.Inv)
    (hover : p.topThreshold < idx.insideDedupIndex.size)
    (hchunks : recvChunks p u.client.sessionKey msg = [chunk])
    (hmem : p.crypto.generateHash chunk ∈ idx.insideDedupIndex.index) :
    ∃ r, processOneBatch p idx out msg u = .ok r := by
  obtain ⟨item, hitem⟩ := Option.isSome_iff_exists.mp (AList.lookup_isSome.mpr hmem)
  let d : InQueryEntry := { hashEntry p chunk with
    dedupFlag := some .duplicate
    chunkAddr := item.address
    chunkFreq := (idx.cmSketch.update (p.crypto.generateHash chunk) 1).estimate
      (p.crypto.generateHash chunk) }
  obtain ⟨heap', hheap⟩ := updateHeapStep_known (p := p) (e := d) hinv hmem
  have hlookup : lookupSection p idx.insideDedupIndex
      (sketchSection idx.cmSketch [hashEntry p chunk]).2 = .ok
        { done := [d]
          outQuery := []
          localIndex :=
            (∅ : AList fun _ : Bytes => Nat).insert (p.crypto.generateHash chunk) 0 } := by
    simp [lookupSection, minFreq, hover.ne', sketchSection, lookupStep, hashEntry,
      EntryHeap.getPriority, hitem, bind, Except.bind, pure, Except.pure, d]
  have hstore : ∃ stored, storeLoop p idx [] [d] [chunk] u = .ok stored ∧ stored.done = [d] :=
    ⟨_, rfl, rfl⟩
  obtain ⟨stored, hstore, hdone⟩ := hstore
  have hsection : updateHeapSection p idx.insideDedupIndex [d] = .ok heap' := by
    rw [updateHeapSection, Loops.foldlM_cons_ok hheap]
    rfl
  refine ⟨_, Loops.bind_eq_ok.mpr ⟨_, by rw [hchunks]; exact hlookup,
    Loops.bind_eq_ok.mpr ⟨stored, by rw [hchunks]; exact hstore,
      Loops.bind_eq_ok.mpr ⟨heap', by rw [hdone]; exact hsection, rfl⟩⟩⟩⟩

namespace FreqServer

/-- **The heap is bounded** in every run in which each start has room for the heap it
loads. -/
theorem heap_bounded {p : Params} {s : FreqServer}
    (hrun : Reaches (restrict roomy next) (init p) s) :
    s.index.insideDedupIndex.size ≤ s.params.topThreshold := by
  have hrunning : s.Running := hrun.invariant (P := Running) (by
    intro s e s' hs hstep
    obtain ⟨hroomy, hnext⟩ := restrict_eq_some.mp hstep
    obtain ⟨s₁, hrun, hs₁, -⟩ := hs.step hroomy
    obtain rfl : s₁ = s' := Except.ok.inj (hrun.symm.trans (next_eq_some.mp hnext))
    exact hs₁) (running_init p)
  exact hrunning.size

theorem heap_bounded_small :
    ∃ s, Reaches (restrict roomy next) (init smallParams) s ∧
      s.observed.map Prod.fst = [smallParams.crypto.generateHash [0x42]] ∧
      s.index.insideDedupIndex.size ≤ s.params.topThreshold := by
  obtain ⟨s, hs, hseen, -⟩ := first_batch_small
  obtain ⟨-, hnext⟩ := restrict_eq_some.mp hs
  have hrun := reaches_of_step (restrict_eq_some.mpr ⟨(rfl : roomy _ _ = true), hnext⟩)
  exact ⟨s, hrun, hseen, heap_bounded hrun⟩

/-- A start with a `topKParam_`: its threshold is a multiple of 1024. -/
def wholeK (_ : FreqServer) : FreqEvent → Bool
  | .restart start => decide (start.topThreshold % 1024 = 0)
  | _ => true

/-- While fewer hashes were counted than there are places, all of them are in the heap. -/
theorem Steady.mem_of_few {p : Params} {s : FreqServer} (h : Steady p s)
    (hwrap : NoWrap s.observed) (hfew : s.observed.length < p.topThreshold) {fp : Bytes}
    (hfp : fp ∈ s.observed.map Prod.fst) : fp ∈ s.index.insideDedupIndex.index := by
  have hbest := (h.tracking hwrap).best
  by_contra hnot
  obtain ⟨f, hf⟩ := lastObserved_isSome hfp
  have hfull := (hbest.best.rest fp f hf (EntryHeap.freqs_eq_none.mpr hnot)).1
  have hsub : s.index.insideDedupIndex.heap ⊆ s.observed.map Prod.fst := by
    intro k hk
    obtain ⟨⟨f, a⟩, hentry⟩ := Option.isSome_iff_exists.mp
      (EntryHeap.mem_index_iff.mp ((hbest.inv.linked.mem_iff k).mp hk))
    have hlast := hbest.best.last k f (EntryHeap.freqs_eq_some.mpr ⟨a, hentry⟩)
    rcases foldl_note_cases hlast with hmem | hnone
    · exact List.mem_map_of_mem hmem
    · cases hnone
  have hle := (List.subperm_of_subset hbest.inv.linked.nodup hsub).length_le
  rw [List.length_map] at hle
  unfold EntryHeap.size at hfull
  rw [h.top] at hfull
  omega

/-- The distinct hashes counted so far are then as many as the heap has entries at least. -/
theorem Steady.le_size {p : Params} {s : FreqServer} (h : Steady p s)
    (hwrap : NoWrap s.observed) (hfew : s.observed.length < p.topThreshold)
    {fps : List Bytes} (hfps : fps.Nodup) (hsub : ∀ fp ∈ fps, fp ∈ s.observed.map Prod.fst) :
    fps.length ≤ s.index.insideDedupIndex.size := by
  refine (List.subperm_of_subset hfps fun fp hfp => ?_).length_le
  rw [h.running.live.inv.linked.mem_iff]
  exact h.mem_of_few hwrap hfew (hsub fp hfp)

/-- A message of new chunks, a start with fewer places, and one of the chunks again. -/
theorem exceeds_of_smaller_start {p : Params} {msg msg' : UploadMsg} {u u' : Upload}
    {chunks : List Bytes} {chunk : Bytes} {start : FreqStart}
    (hmsg : recvChunks p u.client.sessionKey msg = chunks)
    (hmsg' : recvChunks p u'.client.sessionKey msg' = [chunk]) (hchunk : chunk ∈ chunks)
    (hnodup : (chunks.map p.crypto.generateHash).Nodup)
    (hmany : start.topThreshold < chunks.length) (hfew : chunks.length < p.topThreshold)
    (hp : p.topThreshold < 2 ^ 32) :
    ∃ s₁ s₂ s₃, (init p).step (.batch msg u) = .ok s₁ ∧ s₁.step (.restart start) = .ok s₂ ∧
      s₂.step (.batch msg' u') = .ok s₃ ∧ s₃.params.topThreshold = start.topThreshold ∧
      s₃.batchNum = 1 ∧ start.topThreshold < s₃.index.insideDedupIndex.size := by
  -- the first upload: all its hashes are in the heap
  obtain ⟨s₁, hrun₁, -⟩ := (running_init p).batch msg u
  have hnext₁ : restrict sameStart next (init p) (.batch msg u) = some s₁ :=
    restrict_eq_some.mpr ⟨rfl, next_eq_some.mpr hrun₁⟩
  have hsteady := ((steady_init p).step hnext₁).1
  have hhashes : s₁.observed.map Prod.fst = chunks.map p.crypto.generateHash := by
    obtain ⟨r, -, rfl⟩ := step_batch_eq hrun₁
    change List.map Prod.fst (observe _ ((recvChunks p _ msg).map _)) = _
    rw [observe_fst, hmsg]
    rfl
  have hparams : s₁.params = p := by
    obtain ⟨r, -, rfl⟩ := step_batch_eq hrun₁
    rfl
  have hlen : s₁.observed.length = chunks.length := by
    have hcount := congrArg List.length hhashes
    rwa [List.length_map, List.length_map] at hcount
  have hwrap : NoWrap s₁.observed := noWrap_of_length (by omega)
  have hfew₁ : s₁.observed.length < p.topThreshold := hlen ▸ hfew
  have hsize : chunks.length ≤ s₁.index.insideDedupIndex.size := by
    have hle := hsteady.le_size hwrap hfew₁ hnodup fun fp hfp => hhashes ▸ hfp
    rwa [List.length_map] at hle
  have hmem : p.crypto.generateHash chunk ∈ s₁.index.insideDedupIndex.index :=
    hsteady.mem_of_few hwrap hfew₁ (hhashes ▸ List.mem_map_of_mem hchunk)
  -- the restart: the heap comes back as it was
  have hsmall : s₁.index.insideDedupIndex.size < 2 ^ 32 :=
    (hsteady.running.size.trans_eq hsteady.top).trans_lt hp
  obtain ⟨sealed, idx', hrun₂, -, hre⟩ := hsteady.running.reloads start hsmall.le
  have hinv' := hre.heap.inv hsteady.running.live.inv
  have hover : start.topThreshold < idx'.insideDedupIndex.size := by
    unfold EntryHeap.size at hsize ⊢
    rw [hre.heap.heap]
    omega
  -- one batch more
  rw [hparams] at hrun₂
  obtain ⟨r, hrun₃⟩ : ∃ r, processOneBatch (withStart p start) idx' s₁.outIndex msg' u' = .ok r :=
    processOneBatch_known hinv' hover hmsg' ((hre.heap.mem_iff _).mpr hmem)
  have hle := processOneBatch_overfull hinv' hover hrun₃
  refine ⟨s₁, _, _, hrun₁, hrun₂, Loops.bind_eq_ok.mpr ⟨r, hrun₃, rfl⟩, rfl, rfl, ?_⟩
  exact hover.trans_le hle

end FreqServer

/-! ### A start with fewer places -/

/-- A first start with `topKParam_` 2. -/
def twoKParams : Params :=
  { smallParams with
    topThreshold := 2048
    two_le_topThreshold := by decide
    sendChunkBatchSize := 2048
    sendChunkBatchSize_pos := by decide }

/-- A later start with `topKParam_` 1. -/
def oneKStart : FreqStart where
  topThreshold := 1024
  two_le := by decide
  reserved := by decide
  newProcess := true
  junkAtEnd := fun _ => 0
  junk := fun _ => 0

/-- Two bytes that number a chunk. -/
def numberedChunk (i : Nat) : Chunk :=
  ⟨LittleEndian.encode 2 i, by rw [LittleEndian.length_encode]; decide⟩

/-- One more chunk than the later start has places. -/
def manyChunks : Batch twoKParams where
  chunks := (List.range 1025).map numberedChunk
  length_le := by simp [twoKParams]
  length_lt := by simp

/-- One of these chunks again. -/
def oneChunk : Batch twoKParams where
  chunks := [numberedChunk 0]
  length_le := by decide
  length_lt := by decide

theorem hash_numberedChunk_inj {i j : Nat} (hi : i < 2 ^ 16) (hj : j < 2 ^ 16)
    (h : twoKParams.crypto.generateHash (numberedChunk i).val =
      twoKParams.crypto.generateHash (numberedChunk j).val) : i = j := by
  have htake : ∀ k, (twoKParams.crypto.generateHash (numberedChunk k).val).take 2 =
      LittleEndian.encode 2 k := fun _ => rfl
  have hword := congrArg (fun bs => LittleEndian.decode (bs.take 2)) h
  simp only [htake] at hword
  rwa [LittleEndian.decode_encode_of_lt hi, LittleEndian.decode_encode_of_lt hj] at hword

theorem manyChunks_data : manyChunks.data =
    (List.range 1025).map fun i => (numberedChunk i).val := by
  rw [Batch.data, manyChunks, List.map_map]
  rfl

theorem nodup_manyHashes : (manyChunks.data.map twoKParams.crypto.generateHash).Nodup := by
  rw [manyChunks_data, List.map_map]
  refine List.Nodup.map_on (fun i hi j hj h => ?_) List.nodup_range
  rw [List.mem_range] at hi hj
  exact hash_numberedChunk_inj (by omega) (by omega) h

theorem length_manyChunks : manyChunks.data.length = 1025 := by
  rw [manyChunks_data, List.length_map, List.length_range]

theorem numberedChunk_mem : (numberedChunk 0).val ∈ manyChunks.data := by
  rw [manyChunks_data, List.mem_map]
  exact ⟨0, List.mem_range.mpr (by omega), rfl⟩

namespace FreqServer

/-- **A later start with a smaller `topKParam_` breaks the bound.**  After an upload of 1025
chunks under a threshold of 2048, a restart with a threshold of 1024 and one batch, the
heap has more than 1024 entries. -/
theorem smaller_start_exceeds : ¬ ∀ (p : Params) (s : FreqServer), p.topThreshold % 1024 = 0 →
    Reaches (restrict wholeK next) (init p) s → 0 < s.batchNum →
      s.index.insideDedupIndex.size ≤ s.params.topThreshold := by
  intro hclaim
  have hmany : oneKStart.topThreshold < manyChunks.data.length := by
    rw [length_manyChunks]
    decide
  have hfew : manyChunks.data.length < twoKParams.topThreshold := by
    rw [length_manyChunks]
    decide
  obtain ⟨s₁, s₂, s₃, hrun₁, hrun₂, hrun₃, htop, hnum, hover⟩ :=
    exceeds_of_smaller_start (recvChunks_msg manyChunks smallUpload.client.sessionKey)
      (recvChunks_msg oneChunk smallUpload.client.sessionKey) numberedChunk_mem
      nodup_manyHashes hmany hfew (by decide)
  have hnext : ∀ {s s' e}, wholeK s e = true → s.step e = .ok s' →
      Reaches (restrict wholeK next) s s' := fun hk hrun =>
    reaches_of_step (restrict_eq_some.mpr ⟨hk, next_eq_some.mpr hrun⟩)
  have hreach := ((hnext rfl hrun₁).trans (hnext rfl hrun₂)).trans (hnext rfl hrun₃)
  have hle := hclaim twoKParams s₃ rfl hreach (hnum ▸ Nat.one_pos)
  rw [htop] at hle
  exact absurd hle (Nat.not_le.mpr hover)

end FreqServer

end Debe
