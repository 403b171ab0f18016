import Debe.EntryHeap
import Debe.Lib.Runs
import Mathlib.Data.Multiset.AddSub

/-!
# Sequences of heap operations

`EcallEntryHeap` promises nothing about a call that its callers never make: `Add` of a
key that is already there, `Update` of one that is not, `Pop` that leaves nothing.
Between such calls any sequence of operations is allowed, and the heap reached is in
order, with its back-pointers right.

The contents are the multiset of key, frequency and address.  Each operation changes
its own entry there and leaves the others alone.
-/

namespace Debe

open MinHeap

/-- A call of a member function that changes the heap. -/
inductive HeapOp
  | add (key : Bytes) (value : HeapItem)
  | update (key : Bytes) (freq : Nat)
  | pop
  deriving DecidableEq

namespace HeapOp

/-- The call. -/
def apply (h : EntryHeap) : HeapOp → Option EntryHeap
  | add key value => h.add key value
  | update key freq => h.update key freq
  | pop => h.pop

/-- What the callers guarantee. -/
def Allowed (h : EntryHeap) : HeapOp → Prop
  | add key _ => key ∉ h.index
  | update key _ => key ∈ h.index
  | pop => 2 ≤ h.size

instance (h : EntryHeap) (op : HeapOp) : Decidable (op.Allowed h) :=
  match op with
  | add key _ => inferInstanceAs (Decidable (key ∉ h.index))
  | update key _ => inferInstanceAs (Decidable (key ∈ h.index))
  | pop => inferInstanceAs (Decidable (2 ≤ h.size))

/-- One allowed call. -/
def step (h : EntryHeap) (op : HeapOp) : Option EntryHeap :=
  if op.Allowed h then op.apply h else none

end HeapOp

namespace EntryHeap

/-- Key, frequency and address of every entry, in the order of the vector. -/
def contents (h : EntryHeap) : List (Bytes × Nat × RecipeEntry) :=
  h.heap.filterMap fun k => (h.entry k).map fun x => (k, x)

/-- The contents without their order. -/
def bag (h : EntryHeap) : Multiset (Bytes × Nat × RecipeEntry) := h.contents

/-- What an operation does to the contents. -/
def Changes (h h' : EntryHeap) : HeapOp → Prop
  | .add key value => h'.bag = (key, value.chunkFreq, value.address) ::ₘ h.bag
  | .update key freq => ∃ f a rest, h.bag = (key, f, a) ::ₘ rest ∧
      h'.bag = (key, freq, a) ::ₘ rest
  | .pop => ∃ k f a, h.topEntry = some f ∧ h.heap[0]? = some k ∧ h.bag = (k, f, a) ::ₘ h'.bag

/-- `TopEntry` is the least frequency. -/
def TopIsLeast (h : EntryHeap) : Prop :=
  ∃ f, h.topEntry = some f ∧ (∃ x ∈ h.bag, x.2.1 = f) ∧ ∀ x ∈ h.bag, f ≤ x.2.1

theorem mem_bag {h : EntryHeap} (hl : h.Linked) {k : Bytes} {x : Nat × RecipeEntry} :
    (k, x) ∈ h.bag ↔ h.entry k = some x := by
  have hmem : (k, x) ∈ h.bag ↔ (k, x) ∈ h.contents := Multiset.mem_coe
  rw [hmem, contents, List.mem_filterMap]
  constructor
  · rintro ⟨k', -, hk'⟩
    obtain ⟨y, hy, heq⟩ := Option.map_eq_some_iff.mp hk'
    cases heq
    exact hy
  · intro hx
    have hindex : k ∈ h.index := mem_index_iff.mpr (by simp [hx])
    exact ⟨k, (hl.mem_iff k).mpr hindex, by simp [hx]⟩

theorem nodup_bag {h : EntryHeap} (hl : h.Linked) : h.bag.Nodup := by
  have hlist : h.contents.Nodup := by
    refine hl.nodup.filterMap ?_
    intro k k' b hb hb'
    obtain ⟨x, -, rfl⟩ := Option.map_eq_some_iff.mp hb
    obtain ⟨x', -, heq⟩ := Option.map_eq_some_iff.mp hb'
    exact (congrArg Prod.fst heq).symm
  exact Multiset.coe_nodup.mpr hlist

/-- The bag of a heap whose entries are those of another with one key set anew. -/
theorem bag_of_set {h h' : EntryHeap} (hl : h.Linked) (hl' : h'.Linked) {key : Bytes}
    {e : Nat × RecipeEntry} (hnone : h.entry key = none)
    (hentries : ∀ k, h'.entry k = if k = key then some e else h.entry k) :
    h'.bag = (key, e) ::ₘ h.bag := by
  have hnew : (key, e) ∉ h.bag := by
    rw [mem_bag hl, hnone]
    nofun
  refine (nodup_bag hl').ext (Multiset.nodup_cons.mpr ⟨hnew, nodup_bag hl⟩) |>.mpr ?_
  rintro ⟨k, x⟩
  rw [mem_bag hl', Multiset.mem_cons, mem_bag hl, hentries, Prod.mk.injEq]
  split
  · rename_i hk
    subst hk
    simp [hnone, eq_comm]
  · rename_i hk
    simp [hk]

/-- A heap that has lost a key. -/
theorem bag_of_removed {h h' : EntryHeap} (hl : h.Linked) (hl' : h'.Linked) {key : Bytes}
    {e : Nat × RecipeEntry} (hold : h.entry key = some e)
    (hentries : ∀ k, h'.entry k = if k = key then none else h.entry k) :
    h.bag = (key, e) ::ₘ h'.bag := by
  refine bag_of_set hl' hl (by rw [hentries, if_pos rfl]) ?_
  intro k
  rw [hentries]
  split
  · rename_i hk
    rw [hk, hold]
  · rfl

/-- A heap with the frequency of one key changed. -/
theorem bag_of_updated {h h' : EntryHeap} (hl : h.Linked) (hl' : h'.Linked) {key : Bytes}
    {f freq : Nat} {a : RecipeEntry} (hold : h.entry key = some (f, a))
    (hentries : ∀ k, h'.entry k = if k = key then some (freq, a) else h.entry k) :
    ∃ rest, h.bag = (key, f, a) ::ₘ rest ∧ h'.bag = (key, freq, a) ::ₘ rest := by
  obtain ⟨rest, hrest⟩ := Multiset.exists_cons_of_mem ((mem_bag hl).mpr hold)
  have hnodup := nodup_bag hl
  rw [hrest, Multiset.nodup_cons] at hnodup
  have hmem : ∀ k x, (k, x) ∈ rest ↔ k ≠ key ∧ h.entry k = some x := by
    intro k x
    rw [← mem_bag hl, hrest, Multiset.mem_cons]
    constructor
    · intro hx
      refine ⟨?_, .inr hx⟩
      rintro rfl
      have hx' : h.entry k = some x :=
        (mem_bag hl).mp (by rw [hrest]; exact Multiset.mem_cons_of_mem hx)
      rw [hold] at hx'
      exact hnodup.1 (Option.some.inj hx' ▸ hx)
    · rintro ⟨hk, heq | hx⟩
      · exact absurd (congrArg Prod.fst heq) hk
      · exact hx
  have hnew : (key, freq, a) ∉ rest := fun hx => ((hmem _ _).mp hx).1 rfl
  refine ⟨rest, hrest, ?_⟩
  refine (nodup_bag hl').ext (Multiset.nodup_cons.mpr ⟨hnew, hnodup.2⟩) |>.mpr ?_
  rintro ⟨k, x⟩
  rw [mem_bag hl', Multiset.mem_cons, hmem, hentries, Prod.mk.injEq]
  split
  · rename_i hk
    subst hk
    simp [eq_comm]
  · rename_i hk
    simp [hk]

theorem Inv.topIsLeast {h : EntryHeap} (hinv : h.Inv) (hpos : 0 < h.size) : h.TopIsLeast := by
  obtain ⟨t, ht⟩ : ∃ t, h.heap[0]? = some t := ⟨h.heap[0], List.getElem?_eq_getElem hpos⟩
  obtain ⟨f, a, htop, hentry⟩ := hinv.linked.top ht
  obtain ⟨f', htop', hleast⟩ := hinv.topEntry hpos
  obtain rfl : f = f' := Option.some.inj (htop.symm.trans htop')
  refine ⟨f, htop, ⟨_, (mem_bag hinv.linked).mpr hentry, rfl⟩, ?_⟩
  rintro ⟨k, x⟩ hx
  exact hleast k x.1 x.2 ((mem_bag hinv.linked).mp hx)

/-- **One operation.**  An allowed call accesses nothing out of range, restores the
invariant, and changes its own entry only. -/
theorem Inv.apply {h : EntryHeap} (hinv : h.Inv) {op : HeapOp} (hop : op.Allowed h) :
    ∃ h', op.apply h = some h' ∧ h'.Inv ∧ h.Changes h' op := by
  cases op with
  | add key value =>
      obtain ⟨h', hrun, hinv', -, hentries⟩ := hinv.add hop value
      have hnone : h.entry key = none := by
        rw [← Option.not_isSome_iff_eq_none, ← mem_index_iff]
        exact hop
      exact ⟨h', hrun, hinv', bag_of_set hinv.linked hinv'.linked hnone hentries⟩
  | update key freq =>
      obtain ⟨⟨f, a⟩, hold⟩ := Option.isSome_iff_exists.mp (mem_index_iff.mp hop)
      obtain ⟨h', hrun, hinv', -, hentries⟩ := hinv.update hold freq
      obtain ⟨rest, hrest⟩ := bag_of_updated hinv.linked hinv'.linked hold hentries
      exact ⟨h', hrun, hinv', f, a, rest, hrest⟩
  | pop =>
      obtain ⟨h', t, hrun, ht, hinv', -, hentries⟩ := hinv.pop hop
      obtain ⟨f, a, htop, hentry⟩ := hinv.linked.top ht
      exact ⟨h', hrun, hinv', t, f, a, htop, ht,
        bag_of_removed hinv.linked hinv'.linked hentry hentries⟩

/-- The invariant holds after any sequence of allowed calls. -/
theorem inv_of_reaches {h : EntryHeap} (hrun : Runs.Reaches HeapOp.step empty h) : h.Inv := by
  refine hrun.invariant (P := Inv) ?_ inv_empty
  intro h op h' hinv hstep
  rw [HeapOp.step] at hstep
  split at hstep
  · rename_i hop
    obtain ⟨h₁, hrun, hinv₁, -⟩ := hinv.apply hop
    rw [hrun] at hstep
    exact Option.some.inj hstep ▸ hinv₁
  · cases hstep

/-- **An indexed min-heap.**  Whatever sequence of allowed calls led to the heap: its
vector is in order, positions and keys are in bijection, every `idx` is a position,
`TopEntry` is the least frequency, and the next allowed call accesses nothing out of
range and changes its own entry only. -/
theorem indexed_min_heap {h : EntryHeap} (hrun : Runs.Reaches HeapOp.step empty h) :
    Ordered h.heap.length h.prio ∧ h.Linked ∧
    (∀ i k item, h.heap[i]? = some k → h.index.lookup k = some item → item.idx = i) ∧
    (0 < h.size → h.TopIsLeast) ∧
    ∀ op : HeapOp, op.Allowed h → ∃ h', op.apply h = some h' ∧ h.Changes h' op := by
  have hinv := inv_of_reaches hrun
  refine ⟨hinv.ordered, hinv.linked, hinv.back, hinv.topIsLeast, fun op hop => ?_⟩
  obtain ⟨h', happly, -, hchanges⟩ := hinv.apply hop
  exact ⟨h', happly, hchanges⟩

/-- Two calls of `Add`, a call of `Update` that turns their order round, and `Pop`. -/
def smallOps : List HeapOp :=
  let item (chunkFreq : Nat) : HeapItem := { address := .ofBytes [], chunkFreq, idx := 0 }
  [.add [1] (item 2), .add [2] (item 3), .add [3] (item 3), .update [1] 7, .pop]

theorem indexed_min_heap_small : ∃ h, Runs.run HeapOp.step empty smallOps = some h ∧
    (Ordered h.heap.length h.prio ∧ h.Linked ∧
      (∀ i k item, h.heap[i]? = some k → h.index.lookup k = some item → item.idx = i) ∧
      (0 < h.size → h.TopIsLeast) ∧
      ∀ op : HeapOp, op.Allowed h → ∃ h', op.apply h = some h' ∧ h.Changes h' op) := by
  obtain ⟨h, hrun⟩ : ∃ h, Runs.run HeapOp.step empty smallOps = some h :=
    Option.isSome_iff_exists.mp (by decide)
  exact ⟨h, hrun, indexed_min_heap (Runs.reaches_of_run hrun)⟩

end EntryHeap

end Debe
