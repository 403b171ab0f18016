import Debe.Lib.MinHeap
import Debe.Structures
import Mathlib.Data.List.AList

/-!
# The top-k heap of the frequency index

`EcallEntryHeap` keeps a vector of iterators into a hash map.  An iterator is
modelled by the key it points to, so the vector is a list of keys and the map
carries address, frequency and the back-pointer `idx`.  Reads and writes
through the vector can be out of range, and then the operation has no result;
the specifications below show that this never happens on a well-formed heap.

`Inv` is the invariant between operations.  Inside an operation one position is
loose: `Linked` and `BackOff` say that only its back-pointer may be stale, and
`MinHeap.Loose` that only its order may be.
-/

namespace Debe

open MinHeap

/-- `HeapItem_t`. -/
structure HeapItem where
  address : RecipeEntry
  chunkFreq : Nat
  idx : Nat
  deriving DecidableEq, Repr

/-- `EcallEntryHeap`. -/
structure EntryHeap where
  heap : List Bytes
  index : AList (fun _ : Bytes => HeapItem)

namespace EntryHeap

/-- A heap without entries. -/
def empty : EntryHeap := { heap := [], index := ∅ }

/-- `Size`. -/
def size (h : EntryHeap) : Nat := h.heap.length

/-- `_heap[i]->second.chunkFreq`. -/
def freqAt (h : EntryHeap) (i : Nat) : Option Nat :=
  (h.heap[i]?).bind fun k => (h.index.lookup k).map HeapItem.chunkFreq

/-- `_index[key].idx = i`, for a key of the map. -/
def setIdxOf (h : EntryHeap) (key : Bytes) (i : Nat) : Option EntryHeap :=
  (h.index.lookup key).map fun item =>
    { h with index := h.index.insert key { item with idx := i } }

/-- `_heap[i]->second.idx = i`. -/
def setIdx (h : EntryHeap) (i : Nat) : Option EntryHeap :=
  (h.heap[i]?).bind fun k => h.setIdxOf k i

/-- `std::swap(_heap[i], _heap[j]); _heap[i]->second.idx = i;` -/
def exchange (h : EntryHeap) (i j : Nat) : Option EntryHeap :=
  (h.heap[i]?).bind fun a => (h.heap[j]?).bind fun b =>
    setIdx { h with heap := (h.heap.set i b).set j a } i

/-- `SwapUp`.  Each round moves towards the root, so `idx + 1` rounds are enough. -/
def swapUp : Nat → EntryHeap → Nat → Option (EntryHeap × Nat)
  | 0, _, _ => none
  | fuel+1, h, idx =>
      if idx = 0 then some (h, idx)
      else
        (h.freqAt idx).bind fun freq => (h.freqAt (parentIdx idx)).bind fun parentFreq =>
          if freq < parentFreq then
            (h.exchange idx (parentIdx idx)).bind fun h' => swapUp fuel h' (parentIdx idx)
          else some (h, idx)

/-- The child that `SwapDown` compares with: the right one when it is smaller. -/
def smallChild (h : EntryHeap) (child : Nat) : Option Nat :=
  if child + 1 < h.heap.length then
    (h.freqAt (child + 1)).bind fun right => (h.freqAt child).map fun left =>
      if right < left then child + 1 else child
  else some child

/-- `SwapDown`.  Each round moves to a larger position of the vector. -/
def swapDown : Nat → EntryHeap → Nat → Option (EntryHeap × Nat)
  | 0, _, _ => none
  | fuel+1, h, idx =>
      if childIdx idx < h.heap.length then
        (h.smallChild (childIdx idx)).bind fun child =>
          (h.freqAt child).bind fun childFreq => (h.freqAt idx).bind fun freq =>
            if childFreq < freq then
              (h.exchange idx child).bind fun h' => swapDown fuel h' child
            else some (h, idx)
      else some (h, idx)

/-- `TopEntry`: the frequency of the first entry. -/
def topEntry (h : EntryHeap) : Option Nat := h.freqAt 0

/-- `Pop`: the last entry replaces the first and sinks. -/
def pop (h : EntryHeap) : Option EntryHeap :=
  (h.heap[0]?).bind fun t => (h.heap[h.heap.length - 1]?).bind fun last =>
    (swapDown (h.heap.length + 1)
        { heap := (h.heap.set 0 last).dropLast, index := h.index.erase t } 0).bind
      fun r => r.1.setIdx r.2

/-- `Add`.  The map's `insert` keeps an entry that is already there. -/
def add (h : EntryHeap) (key : Bytes) (value : HeapItem) : Option EntryHeap :=
  (swapUp (h.heap.length + 1)
      { heap := h.heap ++ [key]
        index := if key ∈ h.index then h.index else h.index.insert key value }
      h.heap.length).bind
    fun r => r.1.setIdxOf key r.2

/-- `Update`. -/
def update (h : EntryHeap) (key : Bytes) (freq : Nat) : Option EntryHeap :=
  (h.index.lookup key).bind fun item => (h.heap[item.idx]?).bind fun k =>
    (h.index.lookup k).bind fun e =>
      (swapUp (item.idx + 1)
          { h with index := h.index.insert k { e with chunkFreq := freq } } item.idx).bind
        fun up => (swapDown (h.heap.length + 1) up.1 up.2).bind
          fun down => down.1.setIdxOf key down.2

/-- `Contains`. -/
def contains (h : EntryHeap) (key : Bytes) : Bool := decide (key ∈ h.index)

/-- `GetPriority`, for a key of the map. -/
def getPriority (h : EntryHeap) (key : Bytes) : Option HeapItem := h.index.lookup key

/-! ## The invariant -/

/-- What the heap says about a key: its frequency and address. -/
def entry (h : EntryHeap) (key : Bytes) : Option (Nat × RecipeEntry) :=
  (h.index.lookup key).map fun item => (item.chunkFreq, item.address)

/-- The frequency at a position, zero outside the vector. -/
def prio (h : EntryHeap) (i : Nat) : Nat := (h.freqAt i).getD 0

/-- Positions of the vector and keys of the map are in bijection. -/
structure Linked (h : EntryHeap) : Prop where
  nodup : h.heap.Nodup
  mem_iff : ∀ k, k ∈ h.heap ↔ k ∈ h.index

/-- Every back-pointer but the one of position `i` is right. -/
def BackOff (h : EntryHeap) (i : Nat) : Prop :=
  ∀ j k item, j ≠ i → h.heap[j]? = some k → h.index.lookup k = some item → item.idx = j

/-- The heap between operations: bijection, back-pointers, min-heap order. -/
structure Inv (h : EntryHeap) : Prop where
  linked : h.Linked
  back : ∀ j k item, h.heap[j]? = some k → h.index.lookup k = some item → item.idx = j
  ordered : Ordered h.heap.length h.prio

theorem inv_empty : empty.Inv where
  linked := ⟨List.nodup_nil, by simp [empty]⟩
  back := by simp [empty]
  ordered := by intro j _ hj; simp [empty] at hj

theorem mem_index_iff {h : EntryHeap} {k : Bytes} : k ∈ h.index ↔ (h.entry k).isSome := by
  rw [← AList.lookup_isSome, entry, Option.isSome_map]

theorem Linked.lookup {h : EntryHeap} (hl : h.Linked) {i : Nat} {k : Bytes}
    (hk : h.heap[i]? = some k) : ∃ item, h.index.lookup k = some item := by
  have hmem : k ∈ h.index := (hl.mem_iff k).mp (List.mem_of_getElem? hk)
  exact Option.isSome_iff_exists.mp (AList.lookup_isSome.mpr hmem)

theorem Linked.freqAt {h : EntryHeap} (hl : h.Linked) {i : Nat} (hi : i < h.heap.length) :
    h.freqAt i = some (h.prio i) := by
  have hk : h.heap[i]? = some h.heap[i] := List.getElem?_eq_getElem hi
  obtain ⟨item, hitem⟩ := hl.lookup hk
  simp [EntryHeap.freqAt, prio, hk, hitem]

/-- Positions decide keys, since no key occurs twice. -/
theorem Linked.pos_eq {h : EntryHeap} (hl : h.Linked) {i j : Nat} {k : Bytes}
    (hi : h.heap[i]? = some k) (hj : h.heap[j]? = some k) : i = j := by
  have hlt : i < h.heap.length := (List.getElem?_eq_some_iff.mp hi).1
  exact (List.getElem?_inj hlt hl.nodup).mp (hi.trans hj.symm)

theorem freqAt_eq_entry (h : EntryHeap) (i : Nat) :
    h.freqAt i = (h.heap[i]?).bind fun k => (h.entry k).map Prod.fst := by
  simp [EntryHeap.freqAt, entry, Function.comp_def]

/-- Priorities follow the keys when the entries stay. -/
theorem prio_congr {h h' : EntryHeap} (hentry : ∀ k, h'.entry k = h.entry k) {i j : Nat}
    (hkey : h'.heap[i]? = h.heap[j]?) : h'.prio i = h.prio j := by
  simp [prio, freqAt_eq_entry, hkey, hentry]

theorem Linked.of_entry {h h' : EntryHeap} (hl : h.Linked)
    (hentry : ∀ k, h'.entry k = h.entry k) (hnodup : h'.heap.Nodup)
    (hmem : ∀ k, k ∈ h'.heap ↔ k ∈ h.heap) : h'.Linked := by
  refine ⟨hnodup, fun k => ?_⟩
  rw [hmem, hl.mem_iff, mem_index_iff, mem_index_iff, hentry]

/-- Writing a back-pointer changes that back-pointer and nothing else. -/
theorem setIdxOf_spec {h : EntryHeap} (hl : h.Linked) {k : Bytes} (hk : k ∈ h.heap) (i : Nat) :
    ∃ h', h.setIdxOf k i = some h' ∧ h'.heap = h.heap ∧ h'.Linked ∧
      (∀ k', h'.entry k' = h.entry k') ∧
      (∀ k' item, h'.index.lookup k' = some item →
        (k' = k ∧ item.idx = i) ∨ (k' ≠ k ∧ h.index.lookup k' = some item)) := by
  obtain ⟨item, hitem⟩ := Option.isSome_iff_exists.mp
    (AList.lookup_isSome.mpr ((hl.mem_iff k).mp hk))
  have hentry : ∀ k', entry { h with index := h.index.insert k { item with idx := i } } k' =
      h.entry k' := by
    intro k'
    by_cases hkk : k' = k
    · subst hkk
      simp [entry, hitem]
    · simp [entry, AList.lookup_insert_ne hkk]
  refine ⟨{ h with index := h.index.insert k { item with idx := i } }, by simp [setIdxOf, hitem],
    rfl, hl.of_entry hentry hl.nodup (fun _ => Iff.rfl), hentry, ?_⟩
  intro k' item' hk'
  by_cases hkk : k' = k
  · subst hkk
    simp only [AList.lookup_insert, Option.some.injEq] at hk'
    exact Or.inl ⟨rfl, by rw [← hk']⟩
  · exact Or.inr ⟨hkk, by simpa [AList.lookup_insert_ne hkk] using hk'⟩

private theorem getElem?_swap {l : List Bytes} {i j : Nat} {a b : Bytes}
    (hi : l[i]? = some a) (hj : l[j]? = some b) (m : Nat) :
    ((l.set i b).set j a)[m]? = l[Equiv.swap i j m]? := by
  have hilt : i < l.length := (List.getElem?_eq_some_iff.mp hi).1
  have hjlt : j < l.length := (List.getElem?_eq_some_iff.mp hj).1
  by_cases hmj : m = j
  · subst hmj
    simp [hi, hjlt]
  · by_cases hmi : m = i
    · subst hmi
      simp [hj, hilt, Ne.symm hmj]
    · rw [Equiv.swap_apply_of_ne_of_ne hmi hmj]
      simp [Ne.symm hmi, Ne.symm hmj]

/-- A list read through an exchange of two positions is a rearrangement. -/
private theorem swap_mem_nodup {l l' : List Bytes} {i j : Nat} (hlen : l'.length = l.length)
    (hi : i < l.length) (hj : j < l.length)
    (hget : ∀ m, l'[m]? = l[Equiv.swap i j m]?) (hnd : l.Nodup) :
    l'.Nodup ∧ ∀ k, k ∈ l' ↔ k ∈ l := by
  have hlt : ∀ m, m < l.length → Equiv.swap i j m < l.length := by
    intro m hm
    rw [Equiv.swap_apply_def]
    split
    · exact hj
    · split
      · exact hi
      · exact hm
  refine ⟨?_, fun k => ?_⟩
  · rw [List.nodup_iff_getElem?_ne_getElem?]
    intro a b hab hb heq
    have hne : Equiv.swap i j a ≠ Equiv.swap i j b := by
      intro h
      have := (Equiv.swap i j).injective h
      omega
    rw [hget, hget] at heq
    exact hne ((List.getElem?_inj (hlt a (by omega)) hnd).mp heq)
  · rw [List.mem_iff_getElem?, List.mem_iff_getElem?]
    constructor
    · rintro ⟨m, hm⟩
      exact ⟨_, (hget m).symm.trans hm⟩
    · rintro ⟨m, hm⟩
      refine ⟨Equiv.swap i j m, ?_⟩
      rw [hget, Equiv.swap_apply_self]
      exact hm

/-- **One exchange.**  The two positions change places, the stale back-pointer
moves along with the entry that is still travelling, and no entry changes. -/
theorem exchange_spec {h : EntryHeap} (hl : h.Linked) {i j : Nat} (hi : i < h.heap.length)
    (hj : j < h.heap.length) :
    ∃ h', h.exchange i j = some h' ∧ h'.Linked ∧ h'.heap.length = h.heap.length ∧
      (∀ m, h'.heap[m]? = h.heap[Equiv.swap i j m]?) ∧
      (∀ k, h'.entry k = h.entry k) ∧ (h.BackOff i → h'.BackOff j) := by
  have ha : h.heap[i]? = some h.heap[i] := List.getElem?_eq_getElem hi
  have hb : h.heap[j]? = some h.heap[j] := List.getElem?_eq_getElem hj
  let mid : EntryHeap := { h with heap := (h.heap.set i h.heap[j]).set j h.heap[i] }
  have hget : ∀ m, mid.heap[m]? = h.heap[Equiv.swap i j m]? := getElem?_swap ha hb
  have hlen : mid.heap.length = h.heap.length := by simp [mid]
  obtain ⟨hnd, hmem⟩ := swap_mem_nodup hlen hi hj hget hl.nodup
  have hmid : mid.Linked := hl.of_entry (fun _ => rfl) hnd hmem
  have hkey : mid.heap[i]? = some h.heap[j] := by
    rw [hget, Equiv.swap_apply_left, hb]
  obtain ⟨h', hset, hheap, hlinked, hentry, hlookup⟩ :=
    setIdxOf_spec hmid (List.mem_of_getElem? hkey) i
  have hex : h.exchange i j = some h' := by
    unfold exchange
    rw [ha, hb, Option.bind_some, Option.bind_some]
    change mid.setIdx i = some h'
    rw [setIdx, hkey, Option.bind_some, hset]
  refine ⟨h', hex, hlinked, by rw [hheap, hlen], fun m => by rw [hheap, hget], hentry, ?_⟩
  intro hback m k item hmj hk hitem
  rw [hheap, hget] at hk
  rcases hlookup k item hitem with ⟨rfl, hidx⟩ | ⟨hne, hold⟩
  · -- the key now at `i` is the one whose pointer was written
    have hpos : Equiv.swap i j m = j := hl.pos_eq hk hb
    have hm : m = i := by
      have := congrArg (Equiv.swap i j) hpos
      rwa [Equiv.swap_apply_self, Equiv.swap_apply_right] at this
    rw [hidx, hm]
  · have hmi : m ≠ i := by
      intro hm
      rw [hm, Equiv.swap_apply_left, hb] at hk
      exact hne (Option.some.inj hk).symm
    rw [Equiv.swap_apply_of_ne_of_ne hmi hmj] at hk
    exact hback m k item hmi hk hold

/-! ## The two sifts -/

/-- What a sift keeps while it carries the entry of position `i` to `i'`. -/
structure Sifted (h : EntryHeap) (i : Nat) (h' : EntryHeap) (i' : Nat) : Prop where
  linked : h'.Linked
  length : h'.heap.length = h.heap.length
  lt : i' < h'.heap.length
  back : h'.BackOff i'
  entry : ∀ k, h'.entry k = h.entry k
  key : h'.heap[i']? = h.heap[i]?

theorem Sifted.refl {h : EntryHeap} {i : Nat} (hl : h.Linked) (hi : i < h.heap.length)
    (hback : h.BackOff i) : Sifted h i h i :=
  ⟨hl, rfl, hi, hback, fun _ => rfl, rfl⟩

theorem Sifted.trans {h h' h'' : EntryHeap} {i i' i'' : Nat} (s : Sifted h i h' i')
    (s' : Sifted h' i' h'' i'') : Sifted h i h'' i'' :=
  ⟨s'.linked, s'.length.trans s.length, s'.lt, s'.back,
    fun k => (s'.entry k).trans (s.entry k), s'.key.trans s.key⟩

/-- One exchange carries the loose entry of `i` to `j` and swaps the priorities. -/
theorem exchange_sifted {h : EntryHeap} (hl : h.Linked) {i j : Nat} (hi : i < h.heap.length)
    (hj : j < h.heap.length) (hback : h.BackOff i) :
    ∃ h', h.exchange i j = some h' ∧ Sifted h i h' j ∧ h'.prio = swapped h.prio i j := by
  obtain ⟨h', hex, hlinked, hlen, hget, hentry, hoff⟩ := exchange_spec hl hi hj
  refine ⟨h', hex, ⟨hlinked, hlen, by omega, hoff hback, hentry, ?_⟩, ?_⟩
  · rw [hget, Equiv.swap_apply_right]
  · funext m
    exact prio_congr hentry (hget m)

/-- `SwapUp` ends with the loose entry at or above its parent. -/
theorem swapUp_spec (fuel : Nat) {h : EntryHeap} {i : Nat} (hl : h.Linked)
    (hi : i < h.heap.length) (hback : h.BackOff i) (hloose : Loose h.heap.length h.prio i)
    (hfuel : i < fuel) :
    ∃ h' i', swapUp fuel h i = some (h', i') ∧ Sifted h i h' i' ∧
      Loose h'.heap.length h'.prio i' ∧ Above h'.prio i' ∧
      (Below h.heap.length h.prio i → Below h'.heap.length h'.prio i') := by
  induction fuel generalizing h i with
  | zero => omega
  | succ fuel ih =>
      by_cases hi0 : i = 0
      · refine ⟨h, i, by simp [swapUp, hi0], Sifted.refl hl hi hback, hloose, ?_, id⟩
        intro hpos
        omega
      · have hpos : 0 < i := Nat.pos_of_ne_zero hi0
        have hp : parentIdx i < i := parentIdx_lt hpos
        have hfi := hl.freqAt hi
        have hfp := hl.freqAt (i := parentIdx i) (by omega)
        by_cases hlt : h.prio i < h.prio (parentIdx i)
        · obtain ⟨h₁, hex, hs, hprio⟩ := exchange_sifted hl hi (j := parentIdx i) (by omega) hback
          have hup := hloose.up hpos hi hlt
          rw [← hprio, ← hs.length] at hup
          obtain ⟨h', i', hrun, hs', hloose', habove, hbelow⟩ :=
            ih hs.linked hs.lt hs.back hup.1 (by omega)
          refine ⟨h', i', ?_, hs.trans hs', hloose', habove, fun _ => hbelow hup.2⟩
          simp [swapUp, hi0, hfi, hfp, hlt, hex, hrun]
        · refine ⟨h, i, ?_, Sifted.refl hl hi hback, hloose, fun _ => not_lt.mp hlt, id⟩
          simp [swapUp, hi0, hfi, hfp, hlt]

theorem smallChild_spec {h : EntryHeap} (hl : h.Linked) {child : Nat}
    (hc : child < h.heap.length) :
    ∃ c, h.smallChild child = some c ∧ (c = child ∨ c = child + 1) ∧ c < h.heap.length ∧
      ∀ j, j = child ∨ j = child + 1 → j < h.heap.length → h.prio c ≤ h.prio j := by
  have hfc := hl.freqAt hc
  by_cases hr : child + 1 < h.heap.length
  · have hfr := hl.freqAt hr
    by_cases hlt : h.prio (child + 1) < h.prio child
    · refine ⟨child + 1, by simp [smallChild, hr, hfc, hfr, hlt], Or.inr rfl, hr, ?_⟩
      rintro j (rfl | rfl) _
      · exact hlt.le
      · exact le_rfl
    · refine ⟨child, by simp [smallChild, hr, hfc, hfr, hlt], Or.inl rfl, hc, ?_⟩
      rintro j (rfl | rfl) _
      · exact le_rfl
      · exact not_lt.mp hlt
  · refine ⟨child, by simp [smallChild, hr], Or.inl rfl, hc, ?_⟩
    rintro j (rfl | rfl) hj
    · exact le_rfl
    · exact absurd hj hr

/-- `SwapDown` ends with the whole vector in order. -/
theorem swapDown_spec (fuel : Nat) {h : EntryHeap} {i : Nat} (hl : h.Linked)
    (hi : i < h.heap.length) (hback : h.BackOff i) (hloose : Loose h.heap.length h.prio i)
    (habove : Above h.prio i) (hfuel : h.heap.length - i < fuel) :
    ∃ h' i', swapDown fuel h i = some (h', i') ∧ Sifted h i h' i' ∧
      Ordered h'.heap.length h'.prio := by
  induction fuel generalizing h i with
  | zero => omega
  | succ fuel ih =>
      by_cases hchild : childIdx i < h.heap.length
      · obtain ⟨c, hc, hcases, hclt, hmin⟩ := smallChild_spec hl hchild
        have hc0 : 0 < c := by unfold childIdx at hcases; omega
        have hpc : parentIdx c = i := (parentIdx_eq_iff hc0).mpr hcases
        have hfc := hl.freqAt hclt
        have hfi := hl.freqAt hi
        have hleast : ∀ j, 0 < j → j < h.heap.length → parentIdx j = i → h.prio c ≤ h.prio j :=
          fun j hj hjn hpj => hmin j ((parentIdx_eq_iff hj).mp hpj) hjn
        by_cases hlt : h.prio c < h.prio i
        · obtain ⟨h₁, hex, hs, hprio⟩ := exchange_sifted hl hi hclt hback
          have hdown := hloose.down hc0 hclt hpc hleast hlt
          rw [← hprio, ← hs.length] at hdown
          have hci : i < c := hpc ▸ parentIdx_lt hc0
          have hlen := hs.length
          obtain ⟨h', i', hrun, hs', hord⟩ :=
            ih hs.linked hs.lt hs.back hdown.1 hdown.2 (by omega)
          refine ⟨h', i', ?_, hs.trans hs', hord⟩
          simp [swapDown, hchild, hc, hfc, hfi, hlt, hex, hrun]
        · refine ⟨h, i, ?_, Sifted.refl hl hi hback, hloose.ordered habove ?_⟩
          · simp [swapDown, hchild, hc, hfc, hfi, hlt]
          · intro j hj hjn hpj
            exact le_trans (not_lt.mp hlt) (hleast j hj hjn hpj)
      · refine ⟨h, i, ?_, Sifted.refl hl hi hback, hloose.ordered habove ?_⟩
        · simp [swapDown, hchild]
        · intro j hj hjn hpj
          have hj' := (parentIdx_eq_iff hj).mp hpj
          omega

/-- Writing the last stale back-pointer completes the invariant. -/
theorem Sifted.finish {h h' : EntryHeap} {i i' : Nat} {k : Bytes} (s : Sifted h i h' i')
    (hkey : h.heap[i]? = some k) (hord : Ordered h'.heap.length h'.prio) :
    ∃ h'', h'.setIdxOf k i' = some h'' ∧ h''.Inv ∧ h''.heap.length = h.heap.length ∧
      ∀ k', h''.entry k' = h.entry k' := by
  have hk : h'.heap[i']? = some k := s.key.trans hkey
  obtain ⟨h'', hset, hheap, hlinked, hentry, hlookup⟩ :=
    setIdxOf_spec s.linked (List.mem_of_getElem? hk) i'
  have hprio : h''.prio = h'.prio := by
    funext m
    exact prio_congr hentry (by rw [hheap])
  refine ⟨h'', hset, ⟨hlinked, ?_, ?_⟩, by rw [hheap, s.length],
    fun k' => (hentry k').trans (s.entry k')⟩
  · intro j k' item hj hitem
    rw [hheap] at hj
    rcases hlookup k' item hitem with ⟨rfl, hidx⟩ | ⟨hne, hold⟩
    · rw [hidx]
      exact s.linked.pos_eq hk hj
    · have hji : j ≠ i' := by
        intro e
        rw [e, hk] at hj
        exact hne (Option.some.inj hj).symm
      exact s.back j k' item hji hj hold
  · rw [hheap, hprio]
    exact hord

/-! ## The operations -/

/-- `TopEntry` reads the least frequency of the heap. -/
theorem Inv.topEntry {h : EntryHeap} (hinv : h.Inv) (hpos : 0 < h.heap.length) :
    ∃ f, h.topEntry = some f ∧ ∀ k f' a, h.entry k = some (f', a) → f ≤ f' := by
  refine ⟨h.prio 0, hinv.linked.freqAt hpos, ?_⟩
  intro k f' a hentry
  have hmem : k ∈ h.heap := (hinv.linked.mem_iff k).mpr (mem_index_iff.mpr (by simp [hentry]))
  obtain ⟨j, hj⟩ := List.mem_iff_getElem?.mp hmem
  have hjlt : j < h.heap.length := (List.getElem?_eq_some_iff.mp hj).1
  have hprio : h.prio j = f' := by
    simp [prio, freqAt_eq_entry, hj, hentry]
  rw [← hprio]
  exact hinv.ordered.root_le j hjlt

/-- The first entry of the vector is one that `TopEntry` reads. -/
theorem Linked.top {h : EntryHeap} (hl : h.Linked) {t : Bytes} (ht : h.heap[0]? = some t) :
    ∃ f a, h.topEntry = some f ∧ h.entry t = some (f, a) := by
  obtain ⟨item, hitem⟩ := hl.lookup ht
  refine ⟨item.chunkFreq, item.address, ?_, ?_⟩
  · simp [topEntry, EntryHeap.freqAt, ht, hitem]
  · simp [entry, hitem]

/-- **`Add`** of a new key: the heap gains that entry and nothing else changes. -/
theorem Inv.add {h : EntryHeap} (hinv : h.Inv) {key : Bytes} (hnew : key ∉ h.index)
    (value : HeapItem) :
    ∃ h', h.add key value = some h' ∧ h'.Inv ∧ h'.heap.length = h.heap.length + 1 ∧
      ∀ k, h'.entry k = if k = key then some (value.chunkFreq, value.address) else h.entry k := by
  let h₀ : EntryHeap := { heap := h.heap ++ [key], index := h.index.insert key value }
  have hlen : h₀.heap.length = h.heap.length + 1 := by simp [h₀]
  have hentry : ∀ k, h₀.entry k =
      if k = key then some (value.chunkFreq, value.address) else h.entry k := by
    intro k
    by_cases hk : k = key
    · subst hk
      simp [h₀, entry]
    · simp [h₀, entry, hk, AList.lookup_insert_ne hk]
  have hfresh : key ∉ h.heap := fun hm => hnew ((hinv.linked.mem_iff key).mp hm)
  have hl₀ : h₀.Linked := by
    refine ⟨?_, fun k => ?_⟩
    · simpa [h₀, List.nodup_append] using ⟨hinv.linked.nodup, fun a ha e => hfresh (e ▸ ha)⟩
    · simp [h₀, hinv.linked.mem_iff, or_comm]
  have hget : ∀ j, j < h.heap.length → h₀.heap[j]? = h.heap[j]? := by
    intro j hj
    simp [h₀, List.getElem?_append_left hj]
  have hback₀ : h₀.BackOff h.heap.length := by
    intro j k item hj hk hitem
    have hjlt : j < h.heap.length := by
      have := (List.getElem?_eq_some_iff.mp hk).1
      omega
    rw [hget j hjlt] at hk
    have hkk : k ≠ key := fun e => hfresh (e ▸ List.mem_of_getElem? hk)
    exact hinv.back j k item hk (by simpa [h₀, AList.lookup_insert_ne hkk] using hitem)
  have hprio : ∀ j, j < h.heap.length → h₀.prio j = h.prio j := by
    intro j hj
    have hk : h.heap[j]? = some h.heap[j] := List.getElem?_eq_getElem hj
    have hkk : h.heap[j] ≠ key := fun e => hfresh (e ▸ List.mem_of_getElem? hk)
    simp [prio, freqAt_eq_entry, hget j hj, hk, hentry, hkk]
  have hloose := hinv.ordered.loose_push hprio
  rw [← hlen] at hloose
  obtain ⟨h', i', hrun, hs, hloose', habove, hbelow⟩ :=
    swapUp_spec (h.heap.length + 1) hl₀ (by omega) hback₀ hloose.1 (by omega)
  have hkey : h₀.heap[h.heap.length]? = some key := by simp [h₀]
  obtain ⟨h'', hset, hinv'', hlen'', hentry''⟩ :=
    hs.finish hkey (hloose'.ordered habove (hbelow hloose.2))
  refine ⟨h'', ?_, hinv'', by rw [hlen'', hlen], fun k => (hentry'' k).trans (hentry k)⟩
  have hrun' : swapUp (h.heap.length + 1) h₀ h.heap.length = some (h', i') := hrun
  simp only [EntryHeap.add, if_neg hnew]
  change (swapUp (h.heap.length + 1) h₀ h.heap.length).bind _ = _
  rw [hrun', Option.bind_some, hset]

/-- **`Update`** of an existing key: its frequency changes and nothing else does. -/
theorem Inv.update {h : EntryHeap} (hinv : h.Inv) {key : Bytes} {f : Nat} {a : RecipeEntry}
    (hold : h.entry key = some (f, a)) (freq : Nat) :
    ∃ h', h.update key freq = some h' ∧ h'.Inv ∧ h'.heap.length = h.heap.length ∧
      ∀ k, h'.entry k = if k = key then some (freq, a) else h.entry k := by
  obtain ⟨item, hitem, hfa⟩ := Option.map_eq_some_iff.mp hold
  have hmem : key ∈ h.heap := (hinv.linked.mem_iff key).mpr (mem_index_iff.mpr (by simp [hold]))
  obtain ⟨i, hi⟩ := List.mem_iff_getElem?.mp hmem
  have hilt : i < h.heap.length := (List.getElem?_eq_some_iff.mp hi).1
  have hidx : item.idx = i := hinv.back i key item hi hitem
  let h₀ : EntryHeap := { h with index := h.index.insert key { item with chunkFreq := freq } }
  have hentry : ∀ k, h₀.entry k = if k = key then some (freq, a) else h.entry k := by
    intro k
    by_cases hk : k = key
    · subst hk
      have haddr : item.address = a := congrArg Prod.snd hfa
      simp [h₀, entry, haddr]
    · simp [h₀, entry, hk, AList.lookup_insert_ne hk]
  have hl₀ : h₀.Linked := by
    refine ⟨hinv.linked.nodup, fun k => ?_⟩
    have hkey := (hinv.linked.mem_iff key).mp hmem
    have hiff := hinv.linked.mem_iff k
    by_cases hk : k = key
    · simp [h₀, hk, hmem]
    · simpa [h₀, hk] using hiff
  have hback₀ : h₀.BackOff i := by
    intro j k item' hj hk hitem'
    have hkk : k ≠ key := fun e => hj (hinv.linked.pos_eq (e ▸ hk) hi)
    exact hinv.back j k item' hk (by simpa [h₀, AList.lookup_insert_ne hkk] using hitem')
  have hloose₀ : Loose h₀.heap.length h₀.prio i := by
    apply hinv.ordered.loose_of_eq hilt
    intro j hj hji
    have hk : h.heap[j]? = some h.heap[j] := List.getElem?_eq_getElem hj
    have hkk : h.heap[j] ≠ key := fun e => hji (hinv.linked.pos_eq (e ▸ hk) hi)
    have hget : h₀.heap[j]? = h.heap[j]? := rfl
    simp [prio, freqAt_eq_entry, hget, hk, hentry, hkk]
  obtain ⟨h₁, i₁, hup, hs₁, hloose₁, habove₁, _⟩ :=
    swapUp_spec (i + 1) hl₀ hilt hback₀ hloose₀ (by omega)
  have hlen₁ : h₁.heap.length = h.heap.length := hs₁.length
  obtain ⟨h₂, i₂, hdown, hs₂, hord⟩ :=
    swapDown_spec (h.heap.length + 1) hs₁.linked hs₁.lt hs₁.back hloose₁ habove₁ (by omega)
  obtain ⟨h₃, hset, hinv₃, hlen₃, hentry₃⟩ := (hs₁.trans hs₂).finish hi hord
  refine ⟨h₃, ?_, hinv₃, hlen₃, fun k => (hentry₃ k).trans (hentry k)⟩
  have hi' : h.heap[item.idx]? = some key := hidx ▸ hi
  simp only [EntryHeap.update, hitem, hi', Option.bind_some]
  change (swapUp (item.idx + 1) h₀ item.idx).bind _ = _
  rw [hidx, hup, Option.bind_some, hdown, Option.bind_some, hset]

section ReplaceRoot

variable {t last : Bytes} {mid : List Bytes} {index : AList fun _ : Bytes => HeapItem}

/-- A heap whose last key has replaced the first one, which left the map too. -/
theorem Linked.replaceRoot
    (linked : Linked { heap := t :: (mid ++ [last]), index := index }) :
    Linked { heap := last :: mid, index := index.erase t } := by
  have hnd : (t :: (mid ++ [last])).Nodup := linked.nodup
  have htlast : t ≠ last := by
    intro e
    simp [e] at hnd
  have htmid : t ∉ mid := by
    intro e
    simp [e] at hnd
  refine ⟨?_, fun k => ?_⟩
  · have hnd' := (List.nodup_cons.mp hnd).2
    rw [List.nodup_append_comm] at hnd'
    exact hnd'
  · have hiff := linked.mem_iff k
    simp only [List.mem_cons, List.mem_append, List.not_mem_nil, or_false] at hiff
    change k ∈ last :: mid ↔ k ∈ index.erase t
    rw [AList.mem_erase, ← hiff, List.mem_cons]
    constructor
    · intro hk
      rcases hk with rfl | hk
      · exact ⟨htlast.symm, Or.inr (Or.inr rfl)⟩
      · exact ⟨fun e => htmid (e ▸ hk), Or.inr (Or.inl hk)⟩
    · intro hk
      obtain ⟨hkt, rfl | hk | rfl⟩ := hk
      · exact absurd rfl hkt
      · exact Or.inr hk
      · exact Or.inl rfl

/-- The entries once the root is replaced by the last one. -/
theorem entry_replaceRoot (k : Bytes) :
    entry { heap := last :: mid, index := index.erase t } k =
      if k = t then none else entry { heap := t :: (mid ++ [last]), index := index } k := by
  by_cases hk : k = t
  · subst hk
    simp [entry]
  · simp [entry, hk, AList.lookup_erase_ne hk]

/-- The other keys keep their positions. -/
theorem getElem?_replaceRoot {j : Nat} (hj : 0 < j) (hlt : j < (last :: mid).length) :
    (last :: mid)[j]? = (t :: (mid ++ [last]))[j]? := by
  obtain ⟨j, rfl⟩ : ∃ m, j = m + 1 := ⟨j - 1, by omega⟩
  have hm : j < mid.length := by simpa using hlt
  simp [List.getElem?_append_left hm]

/-- They are not the old root. -/
theorem Linked.ne_root (linked : Linked { heap := t :: (mid ++ [last]), index := index })
    {j : Nat} {k : Bytes} (hj : 0 < j) (hk : (t :: (mid ++ [last]))[j]? = some k) : k ≠ t := by
  intro e
  have hpos := linked.pos_eq (i := j) (j := 0) hk (by simp [e])
  omega

theorem Linked.backOff_replaceRoot
    (linked : Linked { heap := t :: (mid ++ [last]), index := index })
    (back : ∀ j k item, (t :: (mid ++ [last]))[j]? = some k → index.lookup k = some item →
      item.idx = j) : BackOff { heap := last :: mid, index := index.erase t } 0 := by
  intro j k item hj hk hitem
  have hjlt := (List.getElem?_eq_some_iff.mp hk).1
  have hpos : 0 < j := Nat.pos_of_ne_zero hj
  have hk : (t :: (mid ++ [last]))[j]? = some k := (getElem?_replaceRoot hpos hjlt).symm.trans hk
  exact back j k item hk (by simpa [AList.lookup_erase_ne (linked.ne_root hpos hk)] using hitem)

/-- Only the root may be too large. -/
theorem Linked.loose_replaceRoot
    (linked : Linked { heap := t :: (mid ++ [last]), index := index })
    (ordered : Ordered (t :: (mid ++ [last])).length
      (prio { heap := t :: (mid ++ [last]), index := index })) :
    Loose (last :: mid).length (prio { heap := last :: mid, index := index.erase t }) 0 := by
  have hlen : (t :: (mid ++ [last])).length = (last :: mid).length + 1 := by simp
  rw [hlen] at ordered
  apply ordered.loose_root
  intro j hj hjlt
  have hkj : (last :: mid)[j]? = some (last :: mid)[j] := List.getElem?_eq_getElem hjlt
  have hk : (t :: (mid ++ [last]))[j]? = some (last :: mid)[j] :=
    (getElem?_replaceRoot hj hjlt).symm.trans hkj
  simp only [prio, freqAt_eq_entry, hkj, hk, Option.bind_some, entry_replaceRoot,
    if_neg (linked.ne_root hj hk)]

end ReplaceRoot

/-- **`Pop`** of a heap with at least two entries: the first entry, which has the
least frequency, leaves and nothing else changes. -/
theorem Inv.pop {h : EntryHeap} (hinv : h.Inv) (hsize : 2 ≤ h.heap.length) :
    ∃ h' t, h.pop = some h' ∧ h.heap[0]? = some t ∧ h'.Inv ∧
      h'.heap.length + 1 = h.heap.length ∧
      ∀ k, h'.entry k = if k = t then none else h.entry k := by
  obtain ⟨linked, back, ordered⟩ := hinv
  obtain ⟨heap, index⟩ := h
  obtain ⟨t, last, mid, rfl⟩ : ∃ t last mid, heap = t :: (mid ++ [last]) := by
    cases heap with
    | nil => simp at hsize
    | cons t rest =>
        have hne : rest ≠ [] := by
          intro e
          simp [e] at hsize
        exact ⟨t, rest.getLast hne, rest.dropLast, by rw [List.dropLast_concat_getLast]⟩
  let h₀ : EntryHeap := { heap := last :: mid, index := index.erase t }
  obtain ⟨h₁, i₁, hdown, hs, hord⟩ :=
    swapDown_spec (h := h₀) ((t :: (mid ++ [last])).length + 1) linked.replaceRoot (by simp [h₀])
      (linked.backOff_replaceRoot back) (linked.loose_replaceRoot ordered)
      (fun h0 => absurd h0 (lt_irrefl 0)) (by simp [h₀])
  have hkey : h₁.heap[i₁]? = some last := by
    rw [hs.key]
    simp [h₀]
  obtain ⟨h₂, hset, hinv₂, hlen₂, hentry₂⟩ := hs.finish (k := last) (by simp [h₀]) hord
  refine ⟨h₂, t, ?_, by simp, hinv₂, by simp [hlen₂, h₀],
    fun k => (hentry₂ k).trans (entry_replaceRoot k)⟩
  have hlast : (t :: (mid ++ [last]))[(t :: (mid ++ [last])).length - 1]? = some last := by
    simp
  have hdrop : ((t :: (mid ++ [last])).set 0 last).dropLast = last :: mid := by
    change ((last :: mid) ++ [last]).dropLast = last :: mid
    exact List.dropLast_concat
  simp only [EntryHeap.pop, hlast, hdrop, List.getElem?_cons_zero, Option.bind_some]
  change (swapDown ((t :: (mid ++ [last])).length + 1) h₀ 0).bind _ = _
  rw [hdown, Option.bind_some, setIdx, hkey, Option.bind_some, hset]

/-- Taking a key out leaves no new entries. -/
theorem entries_of_removed {h h' : EntryHeap} {t : Bytes}
    (hentries : ∀ k, h'.entry k = if k = t then none else h.entry k) :
    ∀ k x, h'.entry k = some x → h.entry k = some x := by
  intro k x hk
  rw [hentries] at hk
  split at hk
  · cases hk
  · exact hk

/-- A heap without new entries has no new keys. -/
theorem not_mem_of_entries {h h' : EntryHeap}
    (hsub : ∀ k x, h'.entry k = some x → h.entry k = some x) {key : Bytes}
    (hnew : key ∉ h.index) : key ∉ h'.index := by
  intro hmem
  obtain ⟨x, hx⟩ := Option.isSome_iff_exists.mp (mem_index_iff.mp hmem)
  exact hnew (mem_index_iff.mpr (by simp [hsub key x hx]))

/-- After one key was set, an entry is the one set or an old one. -/
theorem entry_of_set {h h' : EntryHeap} {key : Bytes} {e : Nat × RecipeEntry}
    (hentries : ∀ k, h'.entry k = if k = key then some e else h.entry k) {k : Bytes}
    {x : Nat × RecipeEntry} (hk : h'.entry k = some x) :
    (k = key ∧ x = e) ∨ h.entry k = some x := by
  rw [hentries] at hk
  split at hk
  · rename_i hkey
    exact .inl ⟨hkey, (Option.some.inj hk).symm⟩
  · exact .inr hk

/-! ## Heaps that differ in the addresses

The simulator compiles the same `EcallEntryHeap` over items that have no address.  No
operation reads an address, so two heaps that differ in the addresses at most stay so. -/

/-- Frequency and back-pointer of an item. -/
def bareItem (item : HeapItem) : Nat × Nat := (item.chunkFreq, item.idx)

/-- The same vector, and the same items up to addresses. -/
structure Alike (h h' : EntryHeap) : Prop where
  heap : h.heap = h'.heap
  items : ∀ k, (h.index.lookup k).map bareItem = (h'.index.lookup k).map bareItem

/-- Fingerprints and frequencies in the order of the vector. -/
def layout (h : EntryHeap) : List (Bytes × Nat) :=
  h.heap.map fun k => (k, ((h.index.lookup k).map HeapItem.chunkFreq).getD 0)

section Alike

variable {h h' : EntryHeap} {key : Bytes}

theorem Alike.refl (h : EntryHeap) : Alike h h := ⟨rfl, fun _ => rfl⟩

theorem Alike.lookup (a : Alike h h') {item : HeapItem} (hitem : h.index.lookup key = some item) :
    ∃ item', h'.index.lookup key = some item' ∧ item'.chunkFreq = item.chunkFreq ∧
      item'.idx = item.idx := by
  have hbare := a.items key
  rw [hitem, Option.map_some] at hbare
  obtain ⟨item', hitem', heq⟩ := Option.map_eq_some_iff.mp hbare.symm
  exact ⟨item', hitem', congrArg Prod.fst heq, congrArg Prod.snd heq⟩

theorem Alike.mem_iff (a : Alike h h') (key : Bytes) : key ∈ h.index ↔ key ∈ h'.index := by
  have hsome := congrArg Option.isSome (a.items key)
  rw [Option.isSome_map, Option.isSome_map] at hsome
  rw [← AList.lookup_isSome, ← AList.lookup_isSome, hsome]

theorem Alike.contains (a : Alike h h') (key : Bytes) : h.contains key = h'.contains key := by
  rw [EntryHeap.contains, EntryHeap.contains, decide_eq_decide]
  exact a.mem_iff key

theorem Alike.freq (a : Alike h h') (k : Bytes) :
    (h.index.lookup k).map HeapItem.chunkFreq = (h'.index.lookup k).map HeapItem.chunkFreq := by
  have hfst := congrArg (Option.map Prod.fst) (a.items k)
  rwa [Option.map_map, Option.map_map] at hfst

theorem Alike.freqAt (a : Alike h h') (i : Nat) : h.freqAt i = h'.freqAt i := by
  simp only [EntryHeap.freqAt, a.heap, a.freq]

theorem Alike.size (a : Alike h h') : h.size = h'.size := congrArg List.length a.heap

theorem Alike.topEntry (a : Alike h h') : h.topEntry = h'.topEntry := a.freqAt 0

theorem Alike.layout (a : Alike h h') : h.layout = h'.layout := by
  simp only [EntryHeap.layout, a.heap, a.freq]

/-- The vector may be rearranged on both sides. -/
theorem Alike.withHeap (a : Alike h h') (l : List Bytes) :
    Alike { h with heap := l } { h' with heap := l } := ⟨rfl, a.items⟩

/-- An item may be written on both sides. -/
theorem Alike.insert (a : Alike h h') (key : Bytes) {item item' : HeapItem}
    (hbare : bareItem item = bareItem item') :
    Alike { h with index := h.index.insert key item }
      { h' with index := h'.index.insert key item' } where
  heap := a.heap
  items := by
    intro k
    by_cases hk : k = key
    · subst hk
      simp [hbare]
    · simpa [AList.lookup_insert_ne hk] using a.items k

theorem Alike.erase (a : Alike h h') (key : Bytes) :
    Alike { h with index := h.index.erase key } { h' with index := h'.index.erase key } where
  heap := a.heap
  items := by
    intro k
    by_cases hk : k = key
    · subst hk
      simp
    · simpa [AList.lookup_erase_ne hk] using a.items k

theorem Alike.setIdxOf (a : Alike h h') {i : Nat} {r : EntryHeap}
    (hrun : h.setIdxOf key i = some r) : ∃ r', h'.setIdxOf key i = some r' ∧ Alike r r' := by
  obtain ⟨item, hitem, rfl⟩ := Option.map_eq_some_iff.mp hrun
  obtain ⟨item', hitem', hfreq, -⟩ := a.lookup hitem
  refine ⟨{ h' with index := h'.index.insert key { item' with idx := i } }, ?_, ?_⟩
  · simp [EntryHeap.setIdxOf, hitem']
  · exact a.insert key (by simp [bareItem, hfreq])

theorem Alike.setIdx (a : Alike h h') {i : Nat} {r : EntryHeap} (hrun : h.setIdx i = some r) :
    ∃ r', h'.setIdx i = some r' ∧ Alike r r' := by
  obtain ⟨k, hk, hset⟩ := Option.bind_eq_some_iff.mp hrun
  obtain ⟨r', hset', ha⟩ := a.setIdxOf hset
  refine ⟨r', ?_, ha⟩
  rw [EntryHeap.setIdx, ← a.heap, hk, Option.bind_some, hset']

theorem Alike.exchange (a : Alike h h') {i j : Nat} {r : EntryHeap}
    (hrun : h.exchange i j = some r) : ∃ r', h'.exchange i j = some r' ∧ Alike r r' := by
  obtain ⟨x, hx, hrun⟩ := Option.bind_eq_some_iff.mp hrun
  obtain ⟨y, hy, hset⟩ := Option.bind_eq_some_iff.mp hrun
  obtain ⟨r', hset', ha⟩ := (a.withHeap ((h.heap.set i y).set j x)).setIdx hset
  refine ⟨r', ?_, ha⟩
  rw [EntryHeap.exchange, ← a.heap, hx, hy, Option.bind_some, Option.bind_some, hset']

theorem Alike.swapUp (a : Alike h h') {fuel i : Nat} {r : EntryHeap × Nat}
    (hrun : EntryHeap.swapUp fuel h i = some r) :
    ∃ r', EntryHeap.swapUp fuel h' i = some r' ∧ Alike r.1 r'.1 ∧ r'.2 = r.2 := by
  induction fuel generalizing h h' i with
  | zero => cases hrun
  | succ fuel ih =>
      rw [EntryHeap.swapUp] at hrun ⊢
      by_cases hroot : i = 0
      · rw [if_pos hroot] at hrun ⊢
        cases hrun
        exact ⟨(h', i), rfl, a, rfl⟩
      · rw [if_neg hroot] at hrun ⊢
        obtain ⟨freq, hfreq, hrun⟩ := Option.bind_eq_some_iff.mp hrun
        obtain ⟨parentFreq, hparent, hrun⟩ := Option.bind_eq_some_iff.mp hrun
        rw [← a.freqAt, hfreq, Option.bind_some, ← a.freqAt, hparent, Option.bind_some]
        by_cases hlt : freq < parentFreq
        · rw [if_pos hlt] at hrun ⊢
          obtain ⟨h₁, hex, hrest⟩ := Option.bind_eq_some_iff.mp hrun
          obtain ⟨h₁', hex', a₁⟩ := a.exchange hex
          rw [hex', Option.bind_some]
          exact ih a₁ hrest
        · rw [if_neg hlt] at hrun ⊢
          cases hrun
          exact ⟨(h', i), rfl, a, rfl⟩

theorem Alike.smallChild (a : Alike h h') (child : Nat) :
    h.smallChild child = h'.smallChild child := by
  simp only [EntryHeap.smallChild, a.heap, a.freqAt]

theorem Alike.swapDown (a : Alike h h') {fuel i : Nat} {r : EntryHeap × Nat}
    (hrun : EntryHeap.swapDown fuel h i = some r) :
    ∃ r', EntryHeap.swapDown fuel h' i = some r' ∧ Alike r.1 r'.1 ∧ r'.2 = r.2 := by
  induction fuel generalizing h h' i with
  | zero => cases hrun
  | succ fuel ih =>
      rw [EntryHeap.swapDown] at hrun ⊢
      rw [← a.heap]
      by_cases hleaf : childIdx i < h.heap.length
      · rw [if_pos hleaf] at hrun ⊢
        obtain ⟨child, hchild, hrun⟩ := Option.bind_eq_some_iff.mp hrun
        obtain ⟨childFreq, hfreq, hrun⟩ := Option.bind_eq_some_iff.mp hrun
        obtain ⟨freq, hown, hrun⟩ := Option.bind_eq_some_iff.mp hrun
        rw [← a.smallChild, hchild, Option.bind_some, ← a.freqAt, hfreq, Option.bind_some,
          ← a.freqAt, hown, Option.bind_some]
        by_cases hlt : childFreq < freq
        · rw [if_pos hlt] at hrun ⊢
          obtain ⟨h₁, hex, hrest⟩ := Option.bind_eq_some_iff.mp hrun
          obtain ⟨h₁', hex', a₁⟩ := a.exchange hex
          rw [hex', Option.bind_some]
          exact ih a₁ hrest
        · rw [if_neg hlt] at hrun ⊢
          cases hrun
          exact ⟨(h', i), rfl, a, rfl⟩
      · rw [if_neg hleaf] at hrun ⊢
        cases hrun
        exact ⟨(h', i), rfl, a, rfl⟩

/-- **`Pop`** does the same to both. -/
theorem Alike.pop (a : Alike h h') {r : EntryHeap} (hrun : h.pop = some r) :
    ∃ r', h'.pop = some r' ∧ Alike r r' := by
  obtain ⟨t, ht, hrun⟩ := Option.bind_eq_some_iff.mp hrun
  obtain ⟨last, hlast, hrun⟩ := Option.bind_eq_some_iff.mp hrun
  obtain ⟨down, hdown, hset⟩ := Option.bind_eq_some_iff.mp hrun
  obtain ⟨down', hdown', a₁, hidx⟩ :=
    ((a.erase t).withHeap ((h.heap.set 0 last).dropLast)).swapDown hdown
  obtain ⟨r', hset', a₂⟩ := a₁.setIdx hset
  refine ⟨r', ?_, a₂⟩
  rw [EntryHeap.pop, ← a.heap, ht, Option.bind_some, hlast, Option.bind_some, hdown',
    Option.bind_some, hidx, hset']

/-- **`Add`** of items that differ in the address. -/
theorem Alike.add (a : Alike h h') {value value' : HeapItem} {r : EntryHeap}
    (hbare : bareItem value = bareItem value') (hrun : h.add key value = some r) :
    ∃ r', h'.add key value' = some r' ∧ Alike r r' := by
  obtain ⟨up, hup, hset⟩ := Option.bind_eq_some_iff.mp hrun
  have hstart : Alike
      { heap := h.heap ++ [key]
        index := if key ∈ h.index then h.index else h.index.insert key value }
      { heap := h.heap ++ [key]
        index := if key ∈ h'.index then h'.index else h'.index.insert key value' } := by
    by_cases hkey : key ∈ h.index
    · rw [if_pos hkey, if_pos ((a.mem_iff key).mp hkey)]
      exact a.withHeap _
    · rw [if_neg hkey, if_neg fun hin => hkey ((a.mem_iff key).mpr hin)]
      exact (a.insert key hbare).withHeap _
  obtain ⟨up', hup', a₁, hidx⟩ := hstart.swapUp hup
  obtain ⟨r', hset', a₂⟩ := a₁.setIdxOf hset
  refine ⟨r', ?_, a₂⟩
  rw [EntryHeap.add, ← a.heap, hup', Option.bind_some, hidx, hset']

/-- **`Update`** does the same to both. -/
theorem Alike.update (a : Alike h h') {freq : Nat} {r : EntryHeap}
    (hrun : h.update key freq = some r) : ∃ r', h'.update key freq = some r' ∧ Alike r r' := by
  obtain ⟨item, hitem, hrun⟩ := Option.bind_eq_some_iff.mp hrun
  obtain ⟨k, hk, hrun⟩ := Option.bind_eq_some_iff.mp hrun
  obtain ⟨e, he, hrun⟩ := Option.bind_eq_some_iff.mp hrun
  obtain ⟨up, hup, hrun⟩ := Option.bind_eq_some_iff.mp hrun
  obtain ⟨down, hdown, hset⟩ := Option.bind_eq_some_iff.mp hrun
  obtain ⟨item', hitem', -, hpos⟩ := a.lookup hitem
  obtain ⟨e', he', -, hidx⟩ := a.lookup he
  have hwrite : bareItem { e with chunkFreq := freq } = bareItem { e' with chunkFreq := freq } := by
    simp [bareItem, hidx]
  obtain ⟨up', hup', a₁, hup₂⟩ := (a.insert k hwrite).swapUp hup
  obtain ⟨down', hdown', a₂, hdown₂⟩ := a₁.swapDown hdown
  obtain ⟨r', hset', a₃⟩ := a₂.setIdxOf hset
  refine ⟨r', ?_, a₃⟩
  rw [EntryHeap.update, hitem', Option.bind_some, hpos, ← a.heap, hk, Option.bind_some, he',
    Option.bind_some]
  rw [a.heap, hup', Option.bind_some, ← a.heap, hup₂, hdown', Option.bind_some, hdown₂, hset']

end Alike

end EntryHeap

end Debe
