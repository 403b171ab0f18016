import Debe.FreqRestart
import Debe.Restart
import Debe.TopKIndex
import Debe.Lib.Runs

/-!
# The frequency index over a server's life

A server with the frequency index processes batches, in the batched or in the per-chunk
variant, for one client at a time, and is restarted now and then: the destructor seals
sketch and heap, and the constructor of the next start, which may have another
`topKParam_`, loads them.

`Running` holds between any two events as long as no start has fewer places than the
heap it loads.  As long as the counters do not wrap and every start has the same
parameters, the heap also holds the best of what was observed: `Tracking`.
-/

namespace Debe

open Sealed TopK

/-- What a start depends on: the size of the top-k index, for which the constructor
reserves room, so that positions fit `uint32_t`, whether the process is a new one, and
what `malloc` gives before and after. -/
structure FreqStart where
  topThreshold : Nat
  two_le : 2 ≤ topThreshold
  reserved : topThreshold < 2 ^ 32
  newProcess : Bool
  junkAtEnd : Nat → UInt8
  junk : Nat → UInt8

/-- What happens to the index: a message processed in one of the variants, for a client
in any state, or a clean restart. -/
inductive FreqEvent
  | batch (msg : UploadMsg) (u : Upload)
  | chunks (msg : UploadMsg) (u : Upload)
  | restart (start : FreqStart)

/-- The server between two events.  `observed` is the history of the estimates and
`batchNum` counts the messages since the start. -/
structure FreqServer where
  params : Params
  index : FreqIndex
  outIndex : OutIndex
  sealed : Sealed
  observed : List (Bytes × Nat)
  batchNum : Nat

/-! ## What the index knows of the stream -/

/-- The sketch has counted the observed hashes, the heap holds the best of what was
observed, and no observation is above the present estimate. -/
structure Tracks (p : Params) (idx : FreqIndex) (observed : List (Bytes × Nat)) : Prop where
  counts : idx.cmSketch.Counts idx.cmSketch.pos (observed.map Prod.fst)
  best : HeapBest p (lastObserved observed) idx.insideDedupIndex
  behind : ∀ k f, lastObserved observed k = some f → f ≤ idx.cmSketch.estimate k

theorem tracks_init (p : Params) : Tracks p .init [] where
  counts := CMSketch.counts_init _ _ _
  best :=
    { inv := EntryHeap.inv_empty
      size := Nat.zero_le _
      best := best_nothing }
  behind := nofun

/-- The sketch's part, after more hashes were counted. -/
theorem Tracks.count {p : Params} {idx idx' : FreqIndex} {observed : List (Bytes × Nat)}
    (h : Tracks p idx observed) {fps : List Bytes}
    (hsketch : idx'.cmSketch = countAll idx.cmSketch fps)
    (hwrap : CMSketch.Unwrapped idx.cmSketch.pos idx.cmSketch.depth
      (observed.map Prod.fst ++ fps))
    (hbest : HeapBest p (lastObserved (observed ++ observe idx.cmSketch fps))
      idx'.insideDedupIndex) :
    Tracks p idx' (observed ++ observe idx.cmSketch fps) := by
  obtain ⟨hcounts, hbetween⟩ := observe_between h.counts hwrap
  have hpos : idx'.cmSketch.pos = idx.cmSketch.pos := by rw [hsketch, countAll_pos]
  refine ⟨?_, hbest, fun k f hlast => ?_⟩
  · rw [hpos, List.map_append, observe_fst, hsketch]
    exact hcounts
  · rw [lastObserved_append] at hlast
    rw [hsketch]
    rcases foldl_note_cases hlast with hmem | hold
    · exact (hbetween _ hmem).2
    · exact (h.behind k f hold).trans (estimate_mono h.counts hcounts (countAll_depth _ _)
        (countAll_pos _ _) k)

/-- A batch of the batched variant. -/
theorem Tracks.batch {p : Params} {good : Bytes → RecipeEntry → Prop} {idx idx' : FreqIndex}
    {observed : List (Bytes × Nat)} (h : Tracks p idx observed) {chunks : List Bytes}
    {looked : LookupState}
    (hpass : BatchPasses idx.cmSketch.pos p idx (chunks.map (hashEntry p)) looked idx')
    (hheap : HeapGood p good idx.insideDedupIndex) (hsmall : chunks.length < 2 ^ 32)
    (hwrap : CMSketch.Unwrapped idx.cmSketch.pos idx.cmSketch.depth
      (observed.map Prod.fst ++ chunks.map p.crypto.generateHash)) :
    Tracks p idx' (observed ++ observe idx.cmSketch (chunks.map p.crypto.generateHash)) ∧
      NoLower p idx.insideDedupIndex idx'.insideDedupIndex := by
  obtain ⟨hbest, hlower⟩ := hpass.best hheap hsmall h.best fun x hx f hf =>
    (h.behind x.1 f hf).trans ((observe_between h.counts hwrap).2 x hx).1
  refine ⟨h.count (hpass.firsts hheap hsmall).1 hwrap ?_, hlower⟩
  rwa [lastObserved_append]

/-- A chunk of the per-chunk variant. -/
theorem Tracks.chunk {p : Params} {idx idx' : FreqIndex} {observed : List (Bytes × Nat)}
    (h : Tracks p idx observed) {fp : Bytes} (hsketch : idx'.cmSketch = idx.cmSketch.update fp 1)
    (hchange : HeapChange p idx.insideDedupIndex fp (idx'.cmSketch.estimate fp)
      idx'.insideDedupIndex)
    (hwrap : CMSketch.Unwrapped idx.cmSketch.pos idx.cmSketch.depth
      (observed.map Prod.fst ++ [fp])) :
    Tracks p idx' (observed ++ observe idx.cmSketch [fp]) ∧
      NoLower p idx.insideDedupIndex idx'.insideDedupIndex := by
  rw [hsketch] at hchange
  have hmem : (fp, (idx.cmSketch.update fp 1).estimate fp) ∈ observe idx.cmSketch [fp] :=
    List.mem_singleton_self _
  obtain ⟨hbest, hlower⟩ := hchange.best h.best fun f hf =>
    (h.behind fp f hf).trans ((observe_between h.counts hwrap).2 _ hmem).1
  refine ⟨h.count hsketch hwrap ?_, hlower⟩
  rw [lastObserved_append]
  exact hbest

/-- A restart with as many places. -/
theorem Tracks.reload {p p' : Params} {idx idx' : FreqIndex} {observed : List (Bytes × Nat)}
    (h : Tracks p idx observed) (hre : idx.Reloaded idx') (hwidth : 0 < idx.cmSketch.width)
    (htop : p'.topThreshold = p.topThreshold) : Tracks p' idx' observed := by
  have hpos : idx'.cmSketch.pos = idx.cmSketch.pos := pos_of_width hre.width
  have hfreqs : idx'.insideDedupIndex.freqs = idx.insideDedupIndex.freqs := by
    funext k
    rw [EntryHeap.freqs, EntryHeap.freqs, hre.heap.entry]
  have hsize : idx'.insideDedupIndex.size = idx.insideDedupIndex.size :=
    congrArg List.length hre.heap.heap
  have hcounts : idx'.cmSketch.Counts idx.cmSketch.pos (observed.map Prod.fst) := by
    intro i j hi
    rw [hre.depth] at hi
    rcases Nat.lt_or_ge j idx.cmSketch.width with hj | hj
    · rw [hre.counters i j hi hj, h.counts i j hi]
    · -- no hash falls behind the end of a row
      rw [hre.blank i j (.inr hj), eq_comm, List.countP_eq_zero]
      intro fp _ hfp
      have hlt : idx.cmSketch.pos fp i < idx.cmSketch.width := Nat.mod_lt _ hwidth
      have hj' : idx.cmSketch.pos fp i = j := by simpa using hfp
      omega
  refine ⟨hpos ▸ hcounts, ⟨hre.heap.inv h.best.inv, ?_, ?_⟩, fun k f hlast => ?_⟩
  · rw [hsize, htop]
    exact h.best.size
  · rw [hsize, htop, hfreqs]
    exact h.best.best
  · have hsame : idx'.cmSketch.Counts idx.cmSketch.pos (observed.map Prod.fst ++ []) := by
      rw [List.append_nil]
      exact hcounts
    exact (h.behind k f hlast).trans (estimate_mono h.counts hsame hre.depth hpos k)

/-- **The chunks of a message** in the per-chunk variant. -/
theorem perChunk_run {p : Params} {s : FreqIndex × OutIndex} {n : Naive}
    (h : FreqRel p s.1 s.2 n.stored)
    (hfreqs : ∀ k x, s.1.insideDedupIndex.entry k = some x → x.1 < 2 ^ 32)
    (chunks : List Bytes) :
    ∃ s', chunks.foldlM (perChunkStep p) (s, n.upload) =
        .ok (s', (naiveChunks p n chunks).upload) ∧
      FreqRel p s'.1 s'.2 (naiveChunks p n chunks).stored ∧
      s'.1.cmSketch = countAll s.1.cmSketch (chunks.map p.crypto.generateHash) ∧
      (∀ k x, s'.1.insideDedupIndex.entry k = some x → x.1 < 2 ^ 32) ∧
      ∀ observed, Tracks p s.1 observed →
        CMSketch.Unwrapped s.1.cmSketch.pos s.1.cmSketch.depth
          (observed.map Prod.fst ++ chunks.map p.crypto.generateHash) →
        Tracks p s'.1
          (observed ++ observe s.1.cmSketch (chunks.map p.crypto.generateHash)) ∧
        NoLower p s.1.insideDedupIndex s'.1.insideDedupIndex := by
  induction chunks generalizing s n with
  | nil =>
      refine ⟨s, rfl, h, rfl, hfreqs, fun observed htracks _ => ⟨?_, .refl p _⟩⟩
      rw [List.map_nil, observe, List.append_nil]
      exact htracks
  | cons chunk chunks ih =>
      obtain ⟨s₁, hrun, hrel, hsketch, hchange⟩ := perChunkStep_change h chunk
      obtain ⟨s₂, hrest, hrel₂, hsketch₂, hfreqs₂, htrack₂⟩ := ih hrel (by
        intro k x hk
        rcases hchange.freqs h.heap hk with hx | hold
        · rw [hx]
          exact CMSketch.estimate_lt _ _
        · exact hfreqs k x hold)
      refine ⟨s₂, by rw [Loops.foldlM_cons_ok hrun, hrest]; rfl, hrel₂,
        by rw [hsketch₂, hsketch]; rfl, hfreqs₂, fun observed htracks hwrap => ?_⟩
      rw [List.map_cons, List.append_cons] at hwrap
      obtain ⟨htracks₁, hlower₁⟩ := htracks.chunk hsketch hchange hwrap.left
      have hpos : s₁.1.cmSketch.pos = s.1.cmSketch.pos := by rw [hsketch, CMSketch.update_pos]
      have hdepth : s₁.1.cmSketch.depth = s.1.cmSketch.depth := by rw [hsketch]; rfl
      obtain ⟨htracks₂, hlower₂⟩ := htrack₂ _ htracks₁ (by
        rw [hpos, hdepth, List.map_append, observe_fst]
        exact hwrap)
      refine ⟨?_, hlower₁.trans hlower₂⟩
      rw [hsketch, List.append_assoc] at htracks₂
      exact htracks₂

namespace FreqServer

/-- The first start. -/
def init (p : Params) : FreqServer where
  params := p
  index := .init
  outIndex := ∅
  sealed := .init
  observed := []
  batchNum := 0

/-- The parameters of the next start: the keys stay. -/
def withStart (p : Params) (start : FreqStart) : Params :=
  { p with topThreshold := start.topThreshold, two_le_topThreshold := start.two_le }

/-- One event. -/
def step (s : FreqServer) : FreqEvent → Except Fault FreqServer
  | .batch msg u => do
      let r ← processOneBatch s.params s.index s.outIndex msg u
      return { s with
        index := r.1
        outIndex := r.2.1
        observed := s.observed ++
          observe s.index.cmSketch (recvHashes s.params u.client.sessionKey msg)
        batchNum := s.batchNum + 1 }
  | .chunks msg u => do
      let r ← (recvChunks s.params u.client.sessionKey msg).foldlM (perChunkStep s.params)
        ((s.index, s.outIndex), u)
      return { s with
        index := r.1.1
        outIndex := r.1.2
        observed := s.observed ++
          observe s.index.cmSketch (recvHashes s.params u.client.sessionKey msg)
        batchNum := s.batchNum + 1 }
  | .restart start => do
      let sealed ← persistFreqIndex start.junkAtEnd s.index s.sealed
      let sealed := if start.newProcess then sealed.newProcess else sealed
      let r ← loadFreqIndex start.junk .init sealed
      return { s with
        params := withStart s.params start
        index := r.1
        sealed := r.2
        batchNum := 0 }

/-- The step as a partial function. -/
def next (s : FreqServer) (e : FreqEvent) : Option FreqServer := (s.step e).toOption

/-- The start has a place for everything the heap holds. -/
def roomy (s : FreqServer) : FreqEvent → Bool
  | .restart start => decide (s.index.insideDedupIndex.size ≤ start.topThreshold)
  | _ => true

/-- The start has the same parameters as the last one. -/
def sameStart (s : FreqServer) : FreqEvent → Bool
  | .restart start => decide (start.topThreshold = s.params.topThreshold)
  | _ => true

theorem next_eq_some {s s' : FreqServer} {e : FreqEvent} :
    s.next e = some s' ↔ s.step e = .ok s' := by
  unfold next
  cases s.step e with
  | error fault => simp [Except.toOption]
  | ok r => simp [Except.toOption]

/-! ## Running -/

/-- What holds between any two events: no stream is open, sketch and heap can be sealed,
and the indexes stand for a map of fingerprints, within the bound of the heap. -/
structure Running (s : FreqServer) : Prop where
  closed : Closed s.sealed
  live : s.index.Live
  rel : ∃ stored, FreqRel s.params s.index s.outIndex stored ∧
    ∀ fp a, InMap stored fp a → fp.length = chunkHashSize

theorem Running.size {s : FreqServer} (h : s.Running) :
    s.index.insideDedupIndex.size ≤ s.params.topThreshold := by
  obtain ⟨stored, hrel, -⟩ := h.rel
  exact hrel.heap.size

theorem running_init (p : Params) : (init p).Running where
  closed := closed_init
  live := FreqIndex.live_init
  rel := ⟨∅, freqRel_init p, nofun⟩

/-- The specification stores fingerprints only. -/
theorem naiveChunks_hashed {p : Params} {n : Naive}
    (h : ∀ fp a, InMap n.stored fp a → fp.length = chunkHashSize) (chunks : List Bytes) :
    ∀ fp a, InMap (naiveChunks p n chunks).stored fp a → fp.length = chunkHashSize := by
  induction chunks generalizing n with
  | nil => exact h
  | cons chunk chunks ih =>
      refine ih fun fp a hmap => ?_
      cases hl : n.stored.lookup (p.crypto.generateHash chunk) with
      | some a' =>
          rw [naiveChunk_reuse hl] at hmap
          exact h fp a hmap
      | none =>
          rw [naiveChunk_store hl] at hmap
          by_cases hfp : fp = p.crypto.generateHash chunk
          · rw [hfp]
            exact p.crypto.length_generateHash chunk
          · rw [InMap, AList.lookup_insert_ne hfp] at hmap
            exact h fp a hmap

/-- A live index, from the parts that an upload changes. -/
theorem live_of_rel {p : Params} {idx : FreqIndex} {out : OutIndex}
    {stored : AList (fun _ : Bytes => RecipeEntry)} (hrel : FreqRel p idx out stored)
    (hhashed : ∀ fp a, InMap stored fp a → fp.length = chunkHashSize)
    {old : FreqIndex} (hold : old.Live) {fps : List Bytes}
    (hsketch : idx.cmSketch = countAll old.cmSketch fps)
    (hfreqs : ∀ k x, idx.insideDedupIndex.entry k = some x → x.1 < 2 ^ 32) : idx.Live where
  width := by rw [hsketch, (countAll_dimensions _ _).1, hold.width]
  depth := by rw [hsketch, countAll_depth, hold.depth]
  counters := hsketch ▸ countAll_counters hold.counters fps
  inv := hrel.heap.inv
  keys := by
    intro k hk
    obtain ⟨x, hx⟩ := Option.isSome_iff_exists.mp
      (EntryHeap.mem_index_iff.mp ((hrel.heap.inv.linked.mem_iff k).mp hk))
    exact hhashed k x.2 (hrel.heap.good k x.1 x.2 hx)
  freqs := hfreqs

/-- No counter wraps while the hashes of these observations are counted. -/
def NoWrap (observed : List (Bytes × Nat)) : Prop :=
  CMSketch.Unwrapped FreqIndex.init.cmSketch.pos FreqIndex.init.cmSketch.depth
    (observed.map Prod.fst)

theorem NoWrap.left {observed more : List (Bytes × Nat)} (h : NoWrap (observed ++ more)) :
    NoWrap observed := by
  unfold NoWrap at h ⊢
  rw [List.map_append] at h
  exact CMSketch.Unwrapped.left h

/-- The index as the server has it tracks what the server observed. -/
def Tracking (s : FreqServer) : Prop := Tracks s.params s.index s.observed

/-- What an event does to the history and to an index that tracks it. -/
structure Follows (s : FreqServer) (e : FreqEvent) (s' : FreqServer) : Prop where
  observed : s.observed <+: s'.observed
  top : s.sameStart e = true → s'.params.topThreshold = s.params.topThreshold
  tracks : s.sameStart e = true → NoWrap s'.observed → s.Tracking →
    s'.Tracking ∧ NoLower s.params s.index.insideDedupIndex s'.index.insideDedupIndex

theorem live_pos {idx : FreqIndex} (h : idx.Live) :
    idx.cmSketch.pos = FreqIndex.init.cmSketch.pos := pos_of_width h.width

/-- The no-wrap condition in terms of a live sketch. -/
theorem NoWrap.unwrapped {idx : FreqIndex} (h : idx.Live) {observed : List (Bytes × Nat)}
    {fps : List Bytes} (hwrap : NoWrap (observed ++ observe idx.cmSketch fps)) :
    CMSketch.Unwrapped idx.cmSketch.pos idx.cmSketch.depth (observed.map Prod.fst ++ fps) := by
  rw [live_pos h, h.depth]
  unfold NoWrap at hwrap
  rwa [List.map_append, observe_fst] at hwrap

/-- A message in the batched variant. -/
theorem Running.batch {s : FreqServer} (h : s.Running) (msg : UploadMsg) (u : Upload) :
    ∃ s', s.step (.batch msg u) = .ok s' ∧ s'.Running ∧ s.Follows (.batch msg u) s' := by
  obtain ⟨stored, hrel, hhashed⟩ := h.rel
  obtain ⟨idx', out', looked, hrun, hrel', hpass⟩ :=
    processOneBatchAt_refines (n := ⟨stored, u⟩) s.index.cmSketch.pos hrel msg
  have hbatch := processOneBatch_eq_at s.params s.index s.outIndex msg u
  rw [hrun] at hbatch
  have hsmall : (recvChunks s.params u.client.sessionKey msg).length < 2 ^ 32 := by
    rw [recvChunks, Records.length_readRecords]
    exact msg.currentItemNum.toNat_lt
  have hlive := live_of_rel hrel' (naiveChunks_hashed hhashed _) h.live
    (hpass.firsts hrel.heap hsmall).1 (hpass.freqs hrel.heap hsmall h.live.freqs)
  refine ⟨_, by simp only [step, hbatch, Except.map, bind, Except.bind]; rfl, ?_, ?_⟩
  · exact ⟨h.closed, hlive, _, hrel', naiveChunks_hashed hhashed _⟩
  · exact ⟨List.prefix_append _ _, fun _ => rfl, fun _ hwrap htracks =>
      Tracks.batch htracks hpass hrel.heap hsmall (hwrap.unwrapped h.live)⟩

/-- A message in the per-chunk variant. -/
theorem Running.chunks {s : FreqServer} (h : s.Running) (msg : UploadMsg) (u : Upload) :
    ∃ s', s.step (.chunks msg u) = .ok s' ∧ s'.Running ∧ s.Follows (.chunks msg u) s' := by
  obtain ⟨stored, hrel, hhashed⟩ := h.rel
  obtain ⟨r, hrun, hrel', hsketch, hfreqs, htrack⟩ := perChunk_run (s := (s.index, s.outIndex))
    (n := ⟨stored, u⟩) hrel h.live.freqs (recvChunks s.params u.client.sessionKey msg)
  have hlive := live_of_rel hrel' (naiveChunks_hashed hhashed _) h.live hsketch hfreqs
  refine ⟨_, by simp only [step, hrun, bind, Except.bind]; rfl, ?_, ?_⟩
  · exact ⟨h.closed, hlive, _, hrel', naiveChunks_hashed hhashed _⟩
  · exact ⟨List.prefix_append _ _, fun _ => rfl, fun _ hwrap htracks =>
      htrack _ htracks (hwrap.unwrapped h.live)⟩

/-- A clean restart, whatever the size of the top-k index: the files are written and
read, and the new index is the old one. -/
theorem Running.reloads {s : FreqServer} (h : s.Running) (start : FreqStart)
    (hsize : s.index.insideDedupIndex.size ≤ 2 ^ 32) :
    ∃ sealed idx', s.step (.restart start) = .ok { s with
        params := withStart s.params start
        index := idx'
        sealed := sealed
        batchNum := 0 } ∧ Closed sealed ∧ s.index.Reloaded idx' := by
  let written := (s.sealed.put .sketch (sketchImages s.index.cmSketch)).put .freqIndex
    (heapImages s.index.insideDedupIndex)
  have hput : Closed written := (h.closed.put _ _).put _ _
  have hpersist : persistFreqIndex start.junkAtEnd s.index s.sealed = .ok written :=
    persistFreqIndex_eq (h.live.sealable hsize) h.closed start.junkAtEnd
  have hclosed := hput.start start.newProcess
  obtain ⟨idx', ⟨st, hload, hst⟩, hre⟩ := h.live.reload hsize hclosed
    (by rw [start_files]; rfl) (by rw [start_files]; rfl) start.junk
  refine ⟨_, idx', ?_, hclosed.reading hst, hre⟩
  simp only [step, hpersist, hload, bind, Except.bind, pure, Except.pure]

/-- A clean restart with a place for everything the heap holds. -/
theorem Running.restart {s : FreqServer} (h : s.Running) {start : FreqStart}
    (hroomy : s.index.insideDedupIndex.size ≤ start.topThreshold) :
    ∃ s', s.step (.restart start) = .ok s' ∧ s'.Running ∧ s.Follows (.restart start) s' := by
  obtain ⟨sealed, idx', hrun, hclosed, hre⟩ := h.reloads start (hroomy.trans start.reserved.le)
  obtain ⟨stored, hrel, hhashed⟩ := h.rel
  have hsize : idx'.insideDedupIndex.size = s.index.insideDedupIndex.size :=
    congrArg List.length hre.heap.heap
  refine ⟨_, hrun, ⟨hclosed, hre.live h.live, stored, ⟨⟨hre.heap.inv h.live.inv, ?_, ?_⟩, ?_, ?_⟩,
    hhashed⟩, List.prefix_refl _, of_decide_eq_true, ?_⟩
  · exact hsize.trans_le hroomy
  · intro fp f a hentry
    rw [hre.heap.entry] at hentry
    exact hrel.heap.good fp f a hentry
  · exact hrel.outside
  · exact hrel.covers
  · intro hsame _ htracks
    have htop : start.topThreshold = s.params.topThreshold := of_decide_eq_true hsame
    have hwidth : 0 < s.index.cmSketch.width := by
      rw [h.live.width]
      decide
    have htracks' : Tracks (withStart s.params start) idx' s.observed :=
      Tracks.reload htracks hre hwidth htop
    refine ⟨htracks', fun hfull => ⟨hsize.trans hfull, fun m hm => ?_⟩⟩
    intro j w hj
    rw [EntryHeap.freqs, hre.heap.entry] at hj
    exact hm j w hj

/-- **One event.**  As long as a start has room for the heap, every event goes through. -/
theorem Running.step {s : FreqServer} (h : s.Running) {e : FreqEvent}
    (hroomy : s.roomy e = true) : ∃ s', s.step e = .ok s' ∧ s'.Running ∧ s.Follows e s' := by
  cases e with
  | batch msg u => exact h.batch msg u
  | chunks msg u => exact h.chunks msg u
  | restart start => exact h.restart (of_decide_eq_true hroomy)

end FreqServer

end Debe
