import Debe.IndexDesigns
import Debe.Lib.TopK

/-!
# What the heap holds of the stream

Every chunk that is counted observes its fingerprint with the estimate after counting.
This module follows the observations through one batch: the sketch section makes them,
the lookup section passes the last one of each fingerprint on to its first entry, and
the heap update takes each of these as one observation of a top-k holder.
-/

namespace Debe

open TopK

/-! ## Observations -/

/-- The estimates noted when the hashes are counted one after the other. -/
def observe : CMSketch → List Bytes → List (Bytes × Nat)
  | _, [] => []
  | sketch, fp :: fps =>
      let sketch := sketch.update fp 1
      (fp, sketch.estimate fp) :: observe sketch fps

/-- The sketch after the hashes were counted. -/
def countAll (sketch : CMSketch) (fps : List Bytes) : CMSketch :=
  fps.foldl (fun sketch fp => sketch.update fp 1) sketch

/-- One more observation. -/
def note (seen : Bytes → Option Nat) (x : Bytes × Nat) : Bytes → Option Nat :=
  Function.update seen x.1 (some x.2)

/-- The last estimate observed for each fingerprint. -/
def lastObserved (observed : List (Bytes × Nat)) : Bytes → Option Nat :=
  observed.foldl note fun _ => none

/-- The observation that a counted entry carries. -/
def InQueryEntry.observation (e : InQueryEntry) : Bytes × Nat := (e.chunkHash, e.chunkFreq)

theorem observe_fst (sketch : CMSketch) (fps : List Bytes) :
    (observe sketch fps).map Prod.fst = fps := by
  induction fps generalizing sketch with
  | nil => rfl
  | cons fp fps ih => rw [observe, List.map_cons, ih]

/-- The sketch section counts the hashes and notes the observations. -/
theorem sketchSection_eq (sketch : CMSketch) (es : List InQueryEntry) :
    (sketchSection sketch es).1 = countAll sketch (es.map InQueryEntry.chunkHash) ∧
    (sketchSection sketch es).2.map InQueryEntry.observation =
      observe sketch (es.map InQueryEntry.chunkHash) := by
  induction es generalizing sketch with
  | nil => exact ⟨rfl, rfl⟩
  | cons e es ih =>
      obtain ⟨hcount, hobserve⟩ := ih (sketch.update e.chunkHash 1)
      refine ⟨hcount, ?_⟩
      rw [sketchSection, List.map_cons, hobserve]
      rfl

theorem lastObserved_append (old new : List (Bytes × Nat)) :
    lastObserved (old ++ new) = new.foldl note (lastObserved old) := List.foldl_append

/-- A fingerprint that is not observed keeps its value. -/
theorem foldl_note_of_not_mem {l : List (Bytes × Nat)} {fp : Bytes}
    (h : fp ∉ l.map Prod.fst) (seen : Bytes → Option Nat) : l.foldl note seen fp = seen fp := by
  induction l generalizing seen with
  | nil => rfl
  | cons x l ih =>
      rw [List.map_cons, List.mem_cons, not_or] at h
      rw [List.foldl_cons, ih h.2, note, Function.update_of_ne h.1]

/-- A value after some observations is one of them or an old one. -/
theorem foldl_note_cases {l : List (Bytes × Nat)} {seen : Bytes → Option Nat} {fp : Bytes}
    {f : Nat} (h : l.foldl note seen fp = some f) : (fp, f) ∈ l ∨ seen fp = some f := by
  induction l generalizing seen with
  | nil => exact .inr h
  | cons x l ih =>
      rcases ih h with hmem | hold
      · exact .inl (List.mem_cons_of_mem _ hmem)
      · by_cases hx : fp = x.1
        · subst hx
          rw [note, Function.update_self] at hold
          exact .inl (List.mem_cons.mpr (.inl (Prod.ext rfl (Option.some.inj hold).symm)))
        · rw [note, Function.update_of_ne hx] at hold
          exact .inr hold

/-! ## Estimates -/

/-- An estimate is at most `UINT32_MAX`. -/
theorem CMSketch.estimate_lt (s : CMSketch) (chunkHash : Bytes) :
    s.estimate chunkHash < 2 ^ 32 := by
  have hle : s.estimate chunkHash ≤ 2 ^ 32 - 1 := CountMin.least_le_top
  omega

theorem observe_lt {sketch : CMSketch} {fps : List Bytes} {x : Bytes × Nat}
    (hx : x ∈ observe sketch fps) : x.2 < 2 ^ 32 := by
  induction fps generalizing sketch with
  | nil => cases hx
  | cons fp fps ih =>
      rcases List.mem_cons.mp hx with rfl | hx
      · exact CMSketch.estimate_lt _ _
      · exact ih hx

/-- Counting keeps the dimensions. -/
theorem countAll_dimensions (sketch : CMSketch) (fps : List Bytes) :
    (countAll sketch fps).width = sketch.width ∧ (countAll sketch fps).depth = sketch.depth := by
  induction fps generalizing sketch with
  | nil => exact ⟨rfl, rfl⟩
  | cons fp fps ih => exact ih (sketch.update fp 1)

theorem countAll_depth (sketch : CMSketch) (fps : List Bytes) :
    (countAll sketch fps).depth = sketch.depth := (countAll_dimensions sketch fps).2

/-- The positions depend on the width only. -/
theorem pos_of_width {sketch sketch' : CMSketch} (h : sketch'.width = sketch.width) :
    sketch'.pos = sketch.pos := by
  funext chunkHash i
  rw [CMSketch.pos, CMSketch.pos, h]

theorem countAll_pos (sketch : CMSketch) (fps : List Bytes) :
    (countAll sketch fps).pos = sketch.pos := pos_of_width (countAll_dimensions sketch fps).1

/-- Counting keeps counters of 32 bits. -/
theorem countAll_counters {sketch : CMSketch} (h : ∀ i j, sketch.counterArray i j < 2 ^ 32)
    (fps : List Bytes) : ∀ i j, (countAll sketch fps).counterArray i j < 2 ^ 32 := by
  induction fps generalizing sketch with
  | nil => exact h
  | cons fp fps ih =>
      refine ih fun i j => ?_
      simp only [CMSketch.update]
      split
      · exact Nat.mod_lt _ (by decide)
      · exact h i j

/-- Without wraps, counting more hashes makes no estimate smaller. -/
theorem estimate_mono {sketch sketch' : CMSketch} {seen more : List Bytes}
    (h : sketch.Counts sketch.pos seen) (h' : sketch'.Counts sketch.pos (seen ++ more))
    (hdepth : sketch'.depth = sketch.depth) (hpos : sketch'.pos = sketch.pos) (fp : Bytes) :
    sketch.estimate fp ≤ sketch'.estimate fp := by
  rw [CMSketch.estimate_eq_estimateAt, CMSketch.estimate_eq_estimateAt, hpos]
  exact h.estimateAt_mono h' hdepth fp

/-- Without wraps, what is observed lies between the estimates before and after. -/
theorem observe_between {sketch : CMSketch} {seen fps : List Bytes}
    (hcounts : sketch.Counts sketch.pos seen)
    (hwrap : CMSketch.Unwrapped sketch.pos sketch.depth (seen ++ fps)) :
    (countAll sketch fps).Counts sketch.pos (seen ++ fps) ∧
    ∀ x ∈ observe sketch fps,
      sketch.estimate x.1 ≤ x.2 ∧ x.2 ≤ (countAll sketch fps).estimate x.1 := by
  induction fps generalizing sketch seen with
  | nil =>
      rw [List.append_nil]
      exact ⟨hcounts, nofun⟩
  | cons fp fps ih =>
      let next := sketch.update fp 1
      have hsplit : seen ++ fp :: fps = (seen ++ [fp]) ++ fps := by simp
      rw [hsplit] at hwrap ⊢
      have hnext : next.Counts sketch.pos (seen ++ [fp]) := hcounts.updateAt hwrap.left
      obtain ⟨hall, hrest⟩ := ih hnext hwrap
      have hgrow := estimate_mono hcounts hnext rfl rfl
      refine ⟨hall, fun x hx => ?_⟩
      rcases List.mem_cons.mp hx with rfl | hx
      · refine ⟨hgrow fp, estimate_mono hnext hall ?_ ?_ fp⟩
        · exact countAll_depth next fps
        · exact countAll_pos next fps
      · obtain ⟨hlow, hhigh⟩ := hrest x hx
        exact ⟨(hgrow x.1).trans hlow, hhigh⟩

/-! ## The lookup section -/

/-- Every first entry carries what was last observed of its fingerprint. -/
def FirstsObserved (seen : Bytes → Option Nat) (pre done : List InQueryEntry) : Prop :=
  ∀ d ∈ done, d.IsFirst →
    (pre.map InQueryEntry.observation).foldl note seen d.chunkHash = some d.chunkFreq

/-- Only the fingerprint of the next entry is observed anew. -/
theorem foldl_note_snoc (seen : Bytes → Option Nat) (pre : List InQueryEntry) (e : InQueryEntry)
    (fp : Bytes) :
    ((pre ++ [e]).map InQueryEntry.observation).foldl note seen fp =
      if fp = e.chunkHash then some e.chunkFreq
      else (pre.map InQueryEntry.observation).foldl note seen fp := by
  rw [List.map_append, List.foldl_append]
  exact Function.update_apply _ _ _ _

/-- An entry with a new hash. -/
theorem FirstsObserved.append {p : Params} {good : Bytes → RecipeEntry → Prop}
    {seen : Bytes → Option Nat} {pre : List InQueryEntry} {s : LookupState} {e d : InQueryEntry}
    (hinv : LookupInv p good pre s) (h : FirstsObserved seen pre s.done)
    (hnew : s.localIndex.lookup e.chunkHash = none) (hhash : d.chunkHash = e.chunkHash)
    (hfreq : d.chunkFreq = e.chunkFreq) : FirstsObserved seen (pre ++ [e]) (s.done ++ [d]) := by
  intro x hx hfirst
  rw [foldl_note_snoc]
  rcases List.mem_append.mp hx with hx | hx
  · have hne : x.chunkHash ≠ e.chunkHash := by
      intro heq
      have hmem := hinv.covered x hx
      rw [heq, ← AList.lookup_isSome, hnew] at hmem
      cases hmem
    rw [if_neg hne]
    exact h x hx hfirst
  · rw [List.mem_singleton.mp hx, if_pos hhash, hfreq]

/-- An entry that refers back: the entry it refers to takes over the frequency. -/
theorem FirstsObserved.back {p : Params} {good : Bytes → RecipeEntry → Prop}
    {seen : Bytes → Option Nat} {pre : List InQueryEntry} {s : LookupState}
    {e found : InQueryEntry} {offset : Nat} (hinv : LookupInv p good pre s)
    (h : FirstsObserved seen pre s.done) (hfound : s.done[offset]? = some found)
    (hhash : found.chunkHash = e.chunkHash) (hisFirst : found.IsFirst) {flag : DedupFlag}
    (hflag : flag = .tmpUnique ∨ flag = .tmpDuplicate) :
    FirstsObserved seen (pre ++ [e]) (backReference s e offset found flag).done := by
  intro x hx hfirst
  rw [foldl_note_snoc]
  rcases List.mem_append.mp hx with hx | hx
  · obtain ⟨j, hj⟩ := List.mem_iff_getElem?.mp hx
    by_cases hjo : offset = j
    · subst hjo
      rw [List.getElem?_set_self (List.getElem?_eq_some_iff.mp hfound).1] at hj
      obtain rfl := Option.some.inj hj
      rw [if_pos hhash]
    · rw [List.getElem?_set_ne hjo] at hj
      have hne : x.chunkHash ≠ e.chunkHash := fun heq =>
        hjo (hinv.flagged.first_pos hfound hj hisFirst hfirst (hhash.trans heq.symm))
      rw [if_neg hne]
      exact h x (List.mem_of_getElem? hj) hfirst
  · -- the new entry itself is no first entry
    rw [List.mem_singleton.mp hx] at hfirst
    rcases hfirst with hf | hf <;> rcases hflag with rfl | rfl <;> cases hf

/-- One round of the lookup loop. -/
theorem lookupStep_observed {p : Params} {good : Bytes → RecipeEntry → Prop} {heap : EntryHeap}
    {freq : Nat} {seen : Bytes → Option Nat} {pre : List InQueryEntry} {s s' : LookupState}
    {e : InQueryEntry} (hinv : LookupInv p good pre s) (h : FirstsObserved seen pre s.done)
    (hrun : lookupStep p heap freq s e = .ok s') : FirstsObserved seen (pre ++ [e]) s'.done := by
  unfold lookupStep at hrun
  split at hrun
  · rename_i offset hlookup
    obtain ⟨found, hfound, hhash, hfirst⟩ := hinv.first _ _ hlookup
    rw [hfound] at hrun
    dsimp only at hrun
    split at hrun
    · cases hrun
      exact h.back hinv hfound hhash hfirst (.inl rfl)
    · cases hrun
      exact h.back hinv hfound hhash hfirst (.inr rfl)
    · cases hrun
  · rename_i hnew
    split at hrun
    · cases hrun
      exact h.append hinv hnew rfl rfl
    · split at hrun <;> cases hrun
      · exact h.append hinv hnew rfl rfl
      · exact h.append hinv hnew rfl rfl

/-- Every hash of the batch has a first entry. -/
theorem LookupInv.exists_first {p : Params} {good : Bytes → RecipeEntry → Prop}
    {es : List InQueryEntry} {s : LookupState} (h : LookupInv p good es s) {fp : Bytes}
    (hfp : fp ∈ es.map InQueryEntry.chunkHash) : ∃ d ∈ s.done, d.IsFirst ∧ d.chunkHash = fp := by
  rw [← h.hashes] at hfp
  obtain ⟨e, he, rfl⟩ := List.mem_map.mp hfp
  obtain ⟨i, hi⟩ := Option.isSome_iff_exists.mp (AList.lookup_isSome.mpr (h.covered e he))
  obtain ⟨d, hd, hhash, hfirst⟩ := h.first _ i hi
  exact ⟨d, List.mem_of_getElem? hd, hfirst, hhash⟩

/-! ## The heap -/

/-- The frequencies that the heap holds. -/
def EntryHeap.freqs (h : EntryHeap) (k : Bytes) : Option Nat := (h.entry k).map Prod.fst

theorem EntryHeap.freqs_eq_some {h : EntryHeap} {k : Bytes} {f : Nat} :
    h.freqs k = some f ↔ ∃ a, h.entry k = some (f, a) := by
  simp [EntryHeap.freqs]

theorem EntryHeap.freqs_eq_none {h : EntryHeap} {k : Bytes} :
    h.freqs k = none ↔ k ∉ h.index := by
  rw [EntryHeap.mem_index_iff, Option.not_isSome_iff_eq_none, EntryHeap.freqs,
    Option.map_eq_none_iff]

theorem EntryHeap.freqs_of_set {h h' : EntryHeap} {key : Bytes} {f : Nat} {a : RecipeEntry}
    (hentries : ∀ k, h'.entry k = if k = key then some (f, a) else h.entry k) :
    h'.freqs = Function.update h.freqs key (some f) := by
  funext k
  rw [EntryHeap.freqs, hentries, Function.update_apply]
  split <;> rfl

theorem EntryHeap.freqs_of_removed {h h' : EntryHeap} {t : Bytes}
    (hentries : ∀ k, h'.entry k = if k = t then none else h.entry k) :
    h'.freqs = Function.update h.freqs t none := by
  funext k
  rw [EntryHeap.freqs, hentries, Function.update_apply]
  split <;> rfl

/-- The top of a heap is its least frequency. -/
theorem EntryHeap.Inv.floor {h : EntryHeap} (hinv : h.Inv) {f : Nat}
    (htop : h.topEntry = some f) : Floor h.freqs f := by
  intro k w hk
  obtain ⟨a, hentry⟩ := EntryHeap.freqs_eq_some.mp hk
  have hmem : k ∈ h.heap :=
    (hinv.linked.mem_iff k).mpr (EntryHeap.mem_index_iff.mpr (by simp [hentry]))
  obtain ⟨f', htop', hleast⟩ := hinv.topEntry (List.length_pos_of_mem hmem)
  obtain rfl : f = f' := Option.some.inj (htop.symm.trans htop')
  exact hleast k w a hentry

/-- The heap is in order, within its bound, and holds the best of what was seen. -/
structure HeapBest (p : Params) (seen : Bytes → Option Nat) (heap : EntryHeap) : Prop where
  inv : heap.Inv
  size : heap.size ≤ p.topThreshold
  best : Best (heap.size = p.topThreshold) heap.freqs seen

/-- A full heap stays full, and its least frequency does not sink. -/
def NoLower (p : Params) (heap heap' : EntryHeap) : Prop :=
  heap.size = p.topThreshold →
    heap'.size = p.topThreshold ∧ ∀ m, Floor heap.freqs m → Floor heap'.freqs m

theorem NoLower.refl (p : Params) (heap : EntryHeap) : NoLower p heap heap :=
  fun hfull => ⟨hfull, fun _ => id⟩

theorem NoLower.trans {p : Params} {heap heap' heap'' : EntryHeap} (h : NoLower p heap heap')
    (h' : NoLower p heap' heap'') : NoLower p heap heap'' := by
  intro hfull
  obtain ⟨hfull', hfloor⟩ := h hfull
  obtain ⟨hfull'', hfloor'⟩ := h' hfull'
  exact ⟨hfull'', fun m hm => hfloor' m (hfloor m hm)⟩

/-- A member is observed again. -/
theorem HeapBest.update {p : Params} {seen : Bytes → Option Nat} {heap : EntryHeap}
    (h : HeapBest p seen heap) {fp : Bytes} (hmem : fp ∈ heap.index) {freq : Nat}
    (hgrow : ∀ f, seen fp = some f → f ≤ freq) :
    ∃ heap', heap.update fp freq = some heap' ∧ HeapBest p (note seen (fp, freq)) heap' ∧
      NoLower p heap heap' := by
  obtain ⟨⟨f, a⟩, hentry⟩ := Option.isSome_iff_exists.mp (EntryHeap.mem_index_iff.mp hmem)
  obtain ⟨heap', hrun, hinv, hlen, hentries⟩ := h.inv.update hentry freq
  have hsize : heap'.size = heap.size := hlen
  have hfreqs := EntryHeap.freqs_of_set hentries
  have hold : heap.freqs fp = some f := EntryHeap.freqs_eq_some.mpr ⟨a, hentry⟩
  have hle : f ≤ freq := hgrow f (h.best.last fp f hold)
  refine ⟨heap', hrun, ⟨hinv, hsize ▸ h.size, ?_⟩, fun hfull => ⟨hsize.trans hfull, ?_⟩⟩
  · rw [hsize, hfreqs]
    exact h.best.raise hold hle
  · intro m hm
    rw [hfreqs]
    exact hm.update ((hm fp f hold).trans hle)

/-- A new key is added; in a full heap it takes the place of the top. -/
theorem HeapBest.add {p : Params} {seen : Bytes → Option Nat} {heap : EntryHeap}
    (h : HeapBest p seen heap) {fp : Bytes} (hnew : fp ∉ heap.index) {freq : Nat}
    (htop : heap.size = p.topThreshold → ∀ t, heap.topEntry = some t → t ≤ freq)
    (a : RecipeEntry) :
    ∃ heap', addChunkToHeap p heap freq a fp = .ok heap' ∧
      HeapBest p (note seen (fp, freq)) heap' ∧ NoLower p heap heap' := by
  have htwo := p.two_le_topThreshold
  by_cases hfull : heap.size = p.topThreshold
  · -- the top leaves first
    have hlen : 2 ≤ heap.heap.length := htwo.trans_eq hfull.symm
    obtain ⟨heap₁, t, hpop, ht, hinv₁, hlen₁, hentries₁⟩ := h.inv.pop hlen
    obtain ⟨m, b, hm, hentry⟩ := h.inv.linked.top ht
    have hfreqs₁ := EntryHeap.freqs_of_removed hentries₁
    have hnew₁ : fp ∉ heap₁.index :=
      EntryHeap.not_mem_of_entries (EntryHeap.entries_of_removed hentries₁) hnew
    obtain ⟨heap₂, hadd, hinv₂, hlen₂, hentries₂⟩ :=
      hinv₁.add hnew₁ { address := a, chunkFreq := freq, idx := 0 }
    have hfreqs₂ := EntryHeap.freqs_of_set hentries₂
    have hsize : heap₂.size = p.topThreshold := by
      unfold EntryHeap.size at *
      omega
    have hfloor := h.inv.floor hm
    have hle := htop hfull m hm
    refine ⟨heap₂, ?_, ⟨hinv₂, hsize.le, ?_⟩, fun _ => ⟨hsize, ?_⟩⟩
    · simp [addChunkToHeap, makeRoom, hfull, hpop, inRange, hadd, bind, Except.bind]
    · rw [hfreqs₂, hfreqs₁, hsize]
      have hbest := h.best
      rw [hfull] at hbest
      exact hbest.replace (EntryHeap.freqs_eq_some.mpr ⟨b, hentry⟩) hfloor hle rfl
    · intro m' hm'
      rw [hfreqs₂, hfreqs₁]
      exact hm'.remove.update ((hm' t m (EntryHeap.freqs_eq_some.mpr ⟨b, hentry⟩)).trans hle)
  · obtain ⟨heap', hadd, hinv, hlen, hentries⟩ :=
      h.inv.add hnew { address := a, chunkFreq := freq, idx := 0 }
    have hfreqs := EntryHeap.freqs_of_set hentries
    have hsize : heap'.size ≤ p.topThreshold := by
      have hle := h.size
      unfold EntryHeap.size at *
      omega
    refine ⟨heap', ?_, ⟨hinv, hsize, ?_⟩, fun hfull' => absurd hfull' hfull⟩
    · simp [addChunkToHeap, makeRoom, hfull, inRange, hadd, bind, Except.bind]
    · rw [hfreqs]
      exact h.best.free hfull

/-- A key below the top of a full heap is not a member and is passed over. -/
theorem HeapBest.skip {p : Params} {seen : Bytes → Option Nat} {heap : EntryHeap}
    (h : HeapBest p seen heap) (hfull : heap.size = p.topThreshold) {fp : Bytes} {freq t : Nat}
    (htop : heap.topEntry = some t) (hlt : freq < t)
    (hgrow : ∀ f, seen fp = some f → f ≤ freq) :
    fp ∉ heap.index ∧ HeapBest p (note seen (fp, freq)) heap := by
  have hfloor := h.inv.floor htop
  have hnone : heap.freqs fp = none := by
    cases hf : heap.freqs fp with
    | none => rfl
    | some f =>
        have hle := hfloor fp f hf
        have hgrown := hgrow f (h.best.last fp f hf)
        omega
  exact ⟨EntryHeap.freqs_eq_none.mp hnone, h.inv, h.size,
    h.best.skip hnone hfull (hfloor.trans hlt.le)⟩

/-- **One round of the heap update**, for an entry whose estimate has not become
smaller. -/
theorem HeapBest.step {p : Params} {seen : Bytes → Option Nat} {heap : EntryHeap}
    (h : HeapBest p seen heap) {e : InQueryEntry} (hfirst : e.IsFirst)
    (hgrow : ∀ f, seen e.chunkHash = some f → f ≤ e.chunkFreq) :
    ∃ heap', updateHeapStep p heap e = .ok heap' ∧
      HeapBest p (note seen e.observation) heap' ∧ NoLower p heap heap' := by
  have hflag : e.dedupFlag = some .unique ∨ e.dedupFlag = some .duplicate := hfirst
  -- the heap takes the entry unless it is full and the entry is below its top
  have htake : checkIfAddToHeap p heap e.chunkFreq = .ok true →
      (heap.size = p.topThreshold → ∀ t, heap.topEntry = some t → t ≤ e.chunkFreq) →
      ∃ heap', updateHeapStep p heap e = .ok heap' ∧
        HeapBest p (note seen e.observation) heap' ∧ NoLower p heap heap' := by
    intro hcheck htop
    by_cases hmem : e.chunkHash ∈ heap.index
    · obtain ⟨heap', hrun, hbest, hlower⟩ := h.update hmem hgrow
      refine ⟨heap', ?_, hbest, hlower⟩
      simp [updateHeapStep, hflag, hcheck, EntryHeap.contains, hmem, inRange, hrun, bind,
        Except.bind]
    · obtain ⟨heap', hrun, hbest, hlower⟩ := h.add hmem htop e.chunkAddr
      refine ⟨heap', ?_, hbest, hlower⟩
      simp [updateHeapStep, hflag, hcheck, EntryHeap.contains, hmem, hrun, bind, Except.bind]
  by_cases hfree : heap.size < p.topThreshold
  · refine htake ?_ fun hfull => absurd hfull hfree.ne
    simp [checkIfAddToHeap, hfree]
  · have hfull : heap.size = p.topThreshold := le_antisymm h.size (not_lt.mp hfree)
    have hpos : 0 < heap.heap.length :=
      (Nat.zero_lt_two.trans_le p.two_le_topThreshold).trans_eq hfull.symm
    obtain ⟨t, ht, -⟩ := h.inv.topEntry hpos
    have hcheck : checkIfAddToHeap p heap e.chunkFreq = .ok (decide (t ≤ e.chunkFreq)) := by
      simp [checkIfAddToHeap, hfree, ht, inRange, bind, Except.bind, pure, Except.pure]
    by_cases hle : t ≤ e.chunkFreq
    · refine htake (by rw [hcheck, decide_eq_true hle]) fun _ t' ht' => ?_
      exact Option.some.inj (ht.symm.trans ht') ▸ hle
    · refine ⟨heap, ?_, (h.skip hfull ht (not_le.mp hle) hgrow).2, .refl p heap⟩
      simp [updateHeapStep, hflag, hcheck, hle, bind, Except.bind, pure, Except.pure]

/-- **The heap update section** brings the heap from what was seen before the batch to
what is seen `now`, when the first entries carry that. -/
theorem HeapBest.section {p : Params} {seen now : Bytes → Option Nat} {heap : EntryHeap}
    (h : HeapBest p seen heap) {es : List InQueryEntry}
    (hnow : ∀ e ∈ es, e.IsFirst → now e.chunkHash = some e.chunkFreq)
    (hgrow : ∀ k f f', seen k = some f → now k = some f' → f ≤ f')
    (hrest : ∀ k, (∀ e ∈ es, e.IsFirst → e.chunkHash ≠ k) → now k = seen k) :
    ∃ heap', updateHeapSection p heap es = .ok heap' ∧ HeapBest p now heap' ∧
      NoLower p heap heap' := by
  -- in mid-loop every fingerprint is seen either as now, or as before if its first entry is to come
  obtain ⟨heap', hrun, mid, hbest, hlower, hmid⟩ := Loops.foldlM_ok (f := updateHeapStep p)
    (l := es) (s := heap)
    (P := fun pre heap' => ∃ mid, HeapBest p mid heap' ∧ NoLower p heap heap' ∧
      ∀ k, mid k = now k ∨ (mid k = seen k ∧ ∀ e ∈ pre, e.IsFirst → e.chunkHash ≠ k))
    ⟨seen, h, .refl p heap, fun k => .inr ⟨rfl, nofun⟩⟩ (by
    rintro pre e rest heap₁ hcut ⟨mid, hbest, hlower, hmid⟩
    have he : e ∈ es := by simp [hcut]
    by_cases hfirst : e.IsFirst
    · have hle : ∀ f, mid e.chunkHash = some f → f ≤ e.chunkFreq := by
        intro f hf
        rcases hmid e.chunkHash with hk | ⟨hk, -⟩
        · rw [hk, hnow e he hfirst] at hf
          exact (Option.some.inj hf).ge
        · rw [hk] at hf
          exact hgrow _ _ _ hf (hnow e he hfirst)
      obtain ⟨heap₂, hrun, hbest₂, hlower₂⟩ := hbest.step hfirst hle
      refine ⟨heap₂, hrun, _, hbest₂, hlower.trans hlower₂, fun k => ?_⟩
      by_cases hk : k = e.chunkHash
      · left
        rw [hk, hnow e he hfirst]
        exact Function.update_self ..
      · have hsame : note mid e.observation k = mid k := Function.update_of_ne hk _ _
        rw [hsame]
        refine (hmid k).imp_right fun ⟨hold, hpre⟩ => ⟨hold, fun x hx hxf => ?_⟩
        rcases List.mem_append.mp hx with hx | hx
        · exact hpre x hx hxf
        · rw [List.mem_singleton.mp hx]
          exact Ne.symm hk
    · have hskip : updateHeapStep p heap₁ e = .ok heap₁ := by
        unfold InQueryEntry.IsFirst at hfirst
        rw [updateHeapStep, if_neg hfirst]
        rfl
      refine ⟨heap₁, hskip, mid, hbest, hlower, fun k => ?_⟩
      refine (hmid k).imp_right fun ⟨hold, hpre⟩ => ⟨hold, fun x hx hxf => ?_⟩
      rcases List.mem_append.mp hx with hx | hx
      · exact hpre x hx hxf
      · exact absurd (List.mem_singleton.mp hx ▸ hxf) hfirst)
  have hall : mid = now := by
    funext k
    rcases hmid k with hk | ⟨hk, hnone⟩
    · exact hk
    · rw [hk, hrest k hnone]
  exact ⟨heap', hrun, hall ▸ hbest, hlower⟩

/-! ## A batch -/

/-- The hashes of a message. -/
def recvHashes (p : Params) (sessionKey : Bytes) (msg : UploadMsg) : List Bytes :=
  (recvChunks p sessionKey msg).map p.crypto.generateHash

/-- What the passes of a batch leave for the heap: entries whose firsts carry the last
observations of the hashes, all of which have a first. -/
theorem BatchPasses.firsts {p : Params} {good : Bytes → RecipeEntry → Prop} {idx idx' : FreqIndex}
    {chunks : List Bytes} {looked : LookupState}
    (h : BatchPasses idx.cmSketch.pos p idx (chunks.map (hashEntry p)) looked idx')
    (hheap : HeapGood p good idx.insideDedupIndex) (hsmall : chunks.length < 2 ^ 32) :
    idx'.cmSketch = countAll idx.cmSketch (chunks.map p.crypto.generateHash) ∧
    ∃ done, updateHeapSection p idx.insideDedupIndex done = .ok idx'.insideDedupIndex ∧
      (∀ seen : Bytes → Option Nat, ∀ d ∈ done, d.IsFirst →
        (observe idx.cmSketch (chunks.map p.crypto.generateHash)).foldl note seen d.chunkHash =
          some d.chunkFreq) ∧
      ∀ fp ∈ chunks.map p.crypto.generateHash, ∃ d ∈ done, d.IsFirst ∧ d.chunkHash = fp := by
  have hhash : (chunks.map (hashEntry p)).map InQueryEntry.chunkHash =
      chunks.map p.crypto.generateHash := by
    rw [List.map_map]
    rfl
  obtain ⟨hcount, hobserve⟩ := sketchSection_eq idx.cmSketch (chunks.map (hashEntry p))
  have hsketch := h.sketch
  have hlookup := h.lookup
  rw [← sketchSection_eq_at] at hsketch hlookup
  rw [hcount, hhash] at hsketch
  rw [hhash] at hobserve
  let counted := (sketchSection idx.cmSketch (chunks.map (hashEntry p))).2
  have hcounted : counted.map InQueryEntry.chunkHash = chunks.map p.crypto.generateHash := by
    rw [(sketchSection_fields _ _).1, hhash]
  have hlen : counted.length < 2 ^ 32 := by
    have heq : counted.length = chunks.length := by simpa using congrArg List.length hcounted
    omega
  obtain ⟨done, hrun, hsame⟩ := h.heap
  refine ⟨hsketch, done, hrun, fun seen d hd hfirst => ?_, fun fp hfp => ?_⟩
  · obtain ⟨looked', hlook, -, hfirsts⟩ := lookupSection_run hheap hlen
      (Q := fun pre s => FirstsObserved seen pre s.done) nofun
      fun _ _ _ _ _ hinv hq hstep => lookupStep_observed hinv hq hstep
    obtain rfl : looked' = looked := Except.ok.inj (hlook.symm.trans hlookup)
    obtain ⟨i, hi⟩ := List.mem_iff_getElem?.mp hd
    obtain ⟨d₀, hd₀, heq⟩ := exists_same_entry hsame hi
    obtain ⟨hflag, hkey, hfreq⟩ := InQueryEntry.unaddressed_fields heq
    have hfirst₀ : d₀.IsFirst := by
      unfold InQueryEntry.IsFirst at hfirst ⊢
      rwa [hflag]
    have hlast := hfirsts d₀ (List.mem_of_getElem? hd₀) hfirst₀
    rwa [hobserve, hkey, hfreq] at hlast
  · obtain ⟨looked', hlook, hinv⟩ := lookupSection_spec hheap hlen
    obtain rfl : looked' = looked := Except.ok.inj (hlook.symm.trans hlookup)
    obtain ⟨d₀, hd₀, hfirst, hkey⟩ := hinv.exists_first (hcounted ▸ hfp)
    obtain ⟨i, hi⟩ := List.mem_iff_getElem?.mp hd₀
    obtain ⟨d, hd, heq⟩ := exists_same_entry hsame.symm hi
    obtain ⟨hflag, hkey', -⟩ := InQueryEntry.unaddressed_fields heq
    refine ⟨d, List.mem_of_getElem? hd, ?_, hkey'.trans hkey⟩
    unfold InQueryEntry.IsFirst at hfirst ⊢
    rwa [hflag]

/-- **A batch** is the observation of its hashes, one after the other. -/
theorem BatchPasses.best {p : Params} {good : Bytes → RecipeEntry → Prop} {idx idx' : FreqIndex}
    {chunks : List Bytes} {looked : LookupState}
    (h : BatchPasses idx.cmSketch.pos p idx (chunks.map (hashEntry p)) looked idx')
    (hheap : HeapGood p good idx.insideDedupIndex) (hsmall : chunks.length < 2 ^ 32)
    {seen : Bytes → Option Nat} (hbest : HeapBest p seen idx.insideDedupIndex)
    (hgrow : ∀ x ∈ observe idx.cmSketch (chunks.map p.crypto.generateHash),
      ∀ f, seen x.1 = some f → f ≤ x.2) :
    HeapBest p ((observe idx.cmSketch (chunks.map p.crypto.generateHash)).foldl note seen)
      idx'.insideDedupIndex ∧ NoLower p idx.insideDedupIndex idx'.insideDedupIndex := by
  obtain ⟨-, done, hrun, hfirsts, hall⟩ := h.firsts hheap hsmall
  obtain ⟨heap', hrun', hbest', hlower⟩ := hbest.section (hfirsts seen) (by
      intro k f f' hseen hnow
      rcases foldl_note_cases hnow with hmem | hold
      · exact hgrow (k, f') hmem f hseen
      · rw [hseen] at hold
        exact (Option.some.inj hold).le) (by
      intro k hnone
      refine foldl_note_of_not_mem ?_ seen
      rw [observe_fst]
      intro hk
      obtain ⟨d, hd, hfirst, hkey⟩ := hall k hk
      exact hnone d hd hfirst hkey)
  obtain rfl : heap' = idx'.insideDedupIndex := Except.ok.inj (hrun'.symm.trans hrun)
  exact ⟨hbest', hlower⟩

/-- The frequencies after a batch are old ones or estimates. -/
theorem BatchPasses.freqs {p : Params} {good : Bytes → RecipeEntry → Prop} {idx idx' : FreqIndex}
    {chunks : List Bytes} {looked : LookupState}
    (h : BatchPasses idx.cmSketch.pos p idx (chunks.map (hashEntry p)) looked idx')
    (hheap : HeapGood p good idx.insideDedupIndex) (hsmall : chunks.length < 2 ^ 32)
    (hfreqs : ∀ k x, idx.insideDedupIndex.entry k = some x → x.1 < 2 ^ 32) :
    ∀ k x, idx'.insideDedupIndex.entry k = some x → x.1 < 2 ^ 32 := by
  obtain ⟨-, done, hrun, hfirsts, -⟩ := h.firsts hheap hsmall
  obtain ⟨heap', hrun', -, hentries⟩ := Loops.foldlM_ok (f := updateHeapStep p) (l := done)
    (s := idx.insideDedupIndex)
    (P := fun _ heap => HeapGood p (fun _ _ => True) heap ∧
      ∀ k x, heap.entry k = some x → x.1 < 2 ^ 32)
    ⟨hheap.mono fun _ _ _ => trivial, hfreqs⟩ (by
    rintro pre e rest heap hcut ⟨hgood, hold⟩
    obtain ⟨heap', hrun, hgood', hentries⟩ := updateHeapStep_spec hgood fun _ => trivial
    refine ⟨heap', hrun, hgood', fun k x hk => ?_⟩
    rcases hentries k x hk with ⟨hfirst, -, hx⟩ | hk
    · have hlast := hfirsts (fun _ => none) e (by simp [hcut]) hfirst
      rcases foldl_note_cases hlast with hmem | hnone
      · rw [hx]
        exact observe_lt hmem
      · cases hnone
    · exact hold k x hk)
  obtain rfl : heap' = idx'.insideDedupIndex := Except.ok.inj (hrun'.symm.trans hrun)
  exact hentries

/-! ## One chunk of the per-chunk variant -/

/-- One chunk is one observation. -/
theorem HeapChange.best {p : Params} {heap heap' : EntryHeap} {fp : Bytes} {chunkFreq : Nat}
    (h : HeapChange p heap fp chunkFreq heap') {seen : Bytes → Option Nat}
    (hbest : HeapBest p seen heap) (hgrow : ∀ f, seen fp = some f → f ≤ chunkFreq) :
    HeapBest p (note seen (fp, chunkFreq)) heap' ∧ NoLower p heap heap' := by
  cases h with
  | skip hfull htop hlt => exact ⟨(hbest.skip hfull htop hlt hgrow).2, .refl p heap⟩
  | update hmem hrun =>
      obtain ⟨heap'', hrun', hboth⟩ := hbest.update hmem hgrow
      obtain rfl : heap'' = heap' := Option.some.inj (hrun'.symm.trans hrun)
      exact hboth
  | add hnew htop a hrun =>
      obtain ⟨heap'', hrun', hboth⟩ := hbest.add hnew htop a
      obtain rfl : heap'' = heap' := Except.ok.inj (hrun'.symm.trans hrun)
      exact hboth

/-- The frequencies after a chunk are old ones or its estimate. -/
theorem HeapChange.freqs {p : Params} {good : Bytes → RecipeEntry → Prop}
    {heap heap' : EntryHeap} {fp : Bytes} {chunkFreq : Nat}
    (h : HeapChange p heap fp chunkFreq heap') (hheap : HeapGood p good heap) {k : Bytes}
    {x : Nat × RecipeEntry} (hk : heap'.entry k = some x) :
    x.1 = chunkFreq ∨ heap.entry k = some x := by
  cases h with
  | skip hfull htop hlt => exact .inr hk
  | update hmem hrun =>
      obtain ⟨⟨f, a⟩, hentry⟩ := Option.isSome_iff_exists.mp (EntryHeap.mem_index_iff.mp hmem)
      obtain ⟨heap'', hrun', -, hentries⟩ := hheap.update hentry chunkFreq
      obtain rfl : heap'' = heap' := Option.some.inj (hrun'.symm.trans hrun)
      exact (hentries k x hk).imp_left fun hset => by rw [hset.2]
  | add hnew htop a hrun =>
      have hany : HeapGood p (fun _ _ => True) heap := hheap.mono fun _ _ _ => trivial
      obtain ⟨heap'', hrun', -, hentries⟩ :=
        addChunkToHeap_spec hany hnew (a := a) trivial chunkFreq
      obtain rfl : heap'' = heap' := Except.ok.inj (hrun'.symm.trans hrun)
      exact (hentries k x hk).imp_left fun hset => by rw [hset.2]

/-- The shared outside path keeps an out-enclave index that stands for the map. -/
theorem readOrStore_freqRel {p : Params} {idx : FreqIndex} {out : OutIndex} {n : Naive}
    (h : FreqRel p idx out n.stored) (chunk : Bytes) :
    (naiveChunk p n chunk).upload =
      recordChunk p (p.crypto.generateHash chunk) chunk.length
        (readOrStore p p.crypto.aesCBCEnc p.crypto.aesCBCDec chunk out n.upload).1
        (readOrStore p p.crypto.aesCBCEnc p.crypto.aesCBCDec chunk out n.upload).2.2 ∧
    FreqRel p idx (readOrStore p p.crypto.aesCBCEnc p.crypto.aesCBCDec chunk out n.upload).2.1
      (naiveChunk p n chunk).stored ∧
    InMap (naiveChunk p n chunk).stored (p.crypto.generateHash chunk)
      (readOrStore p p.crypto.aesCBCEnc p.crypto.aesCBCDec chunk out n.upload).1 := by
  have hlen := p.crypto.length_generateHash chunk
  cases hl : out.lookup (p.crypto.indexAESCMCEnc p.indexQueryKey (p.crypto.generateHash chunk)) with
  | some value =>
      obtain ⟨a, hvalue, hmap⟩ := h.outside.found hlen hl
      rw [naiveChunk_reuse hmap]
      simp only [readOrStore, hl, hvalue, p.crypto.aesCBCDec_address]
      exact ⟨trivial, h, hmap⟩
  | none =>
      have hnone := h.covers _ hlen hl
      rw [naiveChunk_store hnone]
      simp only [readOrStore, hl]
      let a := (storeUnique p chunk n.upload).1
      have hgrow := inMap_insert hnone a
      have hmap : InMap (n.stored.insert (p.crypto.generateHash chunk) a)
          (p.crypto.generateHash chunk) a := AList.lookup_insert _
      exact ⟨trivial, ⟨h.heap.mono hgrow,
        (h.outside.mono hgrow).insert ⟨_, a, hlen, rfl, rfl, hmap⟩,
        h.covers.insert hlen a _⟩, hmap⟩

/-- **One chunk** of the per-chunk variant: it is counted, the heap changes by it, and the
indexes stand for the specification's map as before. -/
theorem perChunkStep_change {p : Params} {s : FreqIndex × OutIndex} {n : Naive}
    (h : FreqRel p s.1 s.2 n.stored) (chunk : Bytes) :
    ∃ s', perChunkStep p (s, n.upload) chunk = .ok (s', (naiveChunk p n chunk).upload) ∧
      FreqRel p s'.1 s'.2 (naiveChunk p n chunk).stored ∧
      s'.1.cmSketch = s.1.cmSketch.update (p.crypto.generateHash chunk) 1 ∧
      HeapChange p s.1.insideDedupIndex (p.crypto.generateHash chunk)
        (s'.1.cmSketch.estimate (p.crypto.generateHash chunk)) s'.1.insideDedupIndex := by
  obtain ⟨hup, hrel, hin⟩ := readOrStore_freqRel h chunk
  obtain ⟨s', hrun, hgood, hsketch, hchange, hcase⟩ :=
    perChunkStep_run h.heap (inMap_naiveChunk (p := p) chunk) hin
  rcases hcase with ⟨a, ⟨f, hentry⟩, hout, hs'⟩ | ⟨hout, hs'⟩
  · have hmap := h.heap.good _ _ _ hentry
    rw [naiveChunk_reuse hmap] at hgood ⊢
    refine ⟨s'.1, by rw [hrun, ← hs'], ⟨hgood, ?_, ?_⟩, hsketch, hchange⟩
    · rw [hout]
      exact h.outside
    · rw [hout]
      exact h.covers
  · refine ⟨s'.1, by rw [hrun, hup, ← hs'], ⟨hgood, ?_, ?_⟩, hsketch, hchange⟩
    · rw [hout]
      exact hrel.outside
    · rw [hout]
      exact hrel.covers

end Debe
