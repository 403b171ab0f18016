import Mathlib.Logic.Equiv.Basic
import Mathlib.Order.Lattice
import Mathlib.Tactic.Common

/-!
# Binary min-heap order at the level of positions

A binary heap laid out in an array puts the children of position `i` at
`2 * i + 1` and `2 * i + 2`.  Here the array is only a priority function
`f : Nat → P` on positions below `n`, so the lemmas say nothing about how
entries, back-pointers or capacities are stored.

`Loose n f i` is the order with the pairs through position `i` left out; it is
what a changed, appended or moved entry leaves behind.  One swap towards the
root (`Loose.up`) or away from it (`Loose.down`) moves the loose position and
keeps the predicate, and `Loose.ordered` closes the gap once both sides of the
loose position are in order.
-/

namespace MinHeap

/-- The parent of a position; meaningful for positions above zero. -/
def parentIdx (i : Nat) : Nat := (i - 1) / 2

/-- The left child of a position; the right child is the next position. -/
def childIdx (i : Nat) : Nat := i * 2 + 1

theorem parentIdx_lt {i : Nat} (hi : 0 < i) : parentIdx i < i := by
  unfold parentIdx
  omega

theorem parentIdx_eq_iff {i j : Nat} (hj : 0 < j) :
    parentIdx j = i ↔ j = childIdx i ∨ j = childIdx i + 1 := by
  unfold parentIdx childIdx
  omega

section Swap

variable {P : Type*}

/-- The priorities after exchanging two positions. -/
def swapped (f : Nat → P) (i j : Nat) : Nat → P :=
  fun k => f (Equiv.swap i j k)

@[simp] theorem swapped_left (f : Nat → P) (i j : Nat) : swapped f i j i = f j := by
  simp [swapped]

@[simp] theorem swapped_right (f : Nat → P) (i j : Nat) : swapped f i j j = f i := by
  simp [swapped]

theorem swapped_other {f : Nat → P} {i j k : Nat} (hi : k ≠ i) (hj : k ≠ j) :
    swapped f i j k = f k := by
  simp [swapped, Equiv.swap_apply_of_ne_of_ne hi hj]

end Swap

variable {P : Type*} [LinearOrder P]

/-- Every entry is at least its parent. -/
def Ordered (n : Nat) (f : Nat → P) : Prop :=
  ∀ j, 0 < j → j < n → f (parentIdx j) ≤ f j

/-- The heap order off position `i`: pairs that do not touch `i` are in order,
and the children of `i` are in order with the parent of `i`. -/
structure Loose (n : Nat) (f : Nat → P) (i : Nat) : Prop where
  off : ∀ j, 0 < j → j < n → j ≠ i → parentIdx j ≠ i → f (parentIdx j) ≤ f j
  across : 0 < i → ∀ j, 0 < j → j < n → parentIdx j = i → f (parentIdx i) ≤ f j

/-- Position `i` is at least its parent. -/
def Above (f : Nat → P) (i : Nat) : Prop :=
  0 < i → f (parentIdx i) ≤ f i

/-- Position `i` is at most its children. -/
def Below (n : Nat) (f : Nat → P) (i : Nat) : Prop :=
  ∀ j, 0 < j → j < n → parentIdx j = i → f i ≤ f j

/-- The order is restored once both sides of the loose position agree. -/
theorem Loose.ordered {n : Nat} {f : Nat → P} {i : Nat} (h : Loose n f i)
    (habove : Above f i) (hbelow : Below n f i) : Ordered n f := by
  intro j hj hjn
  by_cases hji : j = i
  · subst hji
    exact habove hj
  · by_cases hpi : parentIdx j = i
    · rw [hpi]
      exact hbelow j hj hjn hpi
    · exact h.off j hj hjn hji hpi

/-- **One step up.**  Exchanging a loose entry with a larger parent makes the
parent's position the loose one, and the moved entry is below its new
children. -/
theorem Loose.up {n : Nat} {f : Nat → P} {i : Nat} (h : Loose n f i) (hi : 0 < i) (hin : i < n)
    (hlt : f i < f (parentIdx i)) :
    Loose n (swapped f i (parentIdx i)) (parentIdx i) ∧
      Below n (swapped f i (parentIdx i)) (parentIdx i) := by
  have hp : parentIdx i < i := parentIdx_lt hi
  -- the siblings of `i` and the parent itself lie off the loose position
  have hsib : ∀ j, 0 < j → j < n → j ≠ i → parentIdx j = parentIdx i →
      f (parentIdx i) ≤ f j := by
    intro j hj hjn hji hpj
    have := h.off j hj hjn hji (by omega)
    rwa [hpj] at this
  have hgrand : 0 < parentIdx i → f (parentIdx (parentIdx i)) ≤ f (parentIdx i) := by
    intro hq
    have hqq := parentIdx_lt hq
    exact h.off _ hq (by omega) (by omega) (by omega)
  refine ⟨⟨?_, ?_⟩, ?_⟩
  · intro j hj hjn hjq hpj
    have hji : j ≠ i := fun e => hpj (by rw [e])
    rw [swapped_other hji hjq]
    by_cases hpi : parentIdx j = i
    · rw [hpi, swapped_left]
      exact h.across hi j hj hjn hpi
    · rw [swapped_other hpi hpj]
      exact h.off j hj hjn hji hpi
  · intro hq j hj hjn hpj
    have hqq := parentIdx_lt hq
    rw [swapped_other (by omega) (by omega)]
    by_cases hji : j = i
    · rw [hji, swapped_left]
      exact hgrand hq
    · have hjq : j ≠ parentIdx i := by have := parentIdx_lt hj; omega
      rw [swapped_other hji hjq]
      exact le_trans (hgrand hq) (hsib j hj hjn hji hpj)
  · intro j hj hjn hpj
    rw [swapped_right]
    by_cases hji : j = i
    · rw [hji, swapped_left]
      exact hlt.le
    · have hjq : j ≠ parentIdx i := by have := parentIdx_lt hj; omega
      rw [swapped_other hji hjq]
      exact le_trans hlt.le (hsib j hj hjn hji hpj)

/-- **One step down.**  Exchanging a loose entry with its smallest child makes
the child's position the loose one, and the moved entry is above its new
parent. -/
theorem Loose.down {n : Nat} {f : Nat → P} {i c : Nat} (h : Loose n f i) (hc : 0 < c)
    (hcn : c < n) (hpc : parentIdx c = i)
    (hmin : ∀ j, 0 < j → j < n → parentIdx j = i → f c ≤ f j) (hlt : f c < f i) :
    Loose n (swapped f i c) c ∧ Above (swapped f i c) c := by
  have hic : i < c := hpc ▸ parentIdx_lt hc
  refine ⟨⟨?_, ?_⟩, ?_⟩
  · intro j hj hjn hjc hpj
    by_cases hji : j = i
    · subst hji
      have hpp := parentIdx_lt hj
      rw [swapped_left, swapped_other (by omega) (by omega)]
      exact h.across hj c hc hcn hpc
    · rw [swapped_other hji hjc]
      by_cases hpi : parentIdx j = i
      · rw [hpi, swapped_left]
        exact hmin j hj hjn hpi
      · rw [swapped_other hpi hpj]
        exact h.off j hj hjn hji hpi
  · intro _ j hj hjn hpj
    have hcj : c < j := hpj ▸ parentIdx_lt hj
    rw [hpc, swapped_left, swapped_other (by omega) (by omega)]
    have := h.off j hj hjn (by omega) (by omega)
    rwa [hpj] at this
  · intro _
    rw [hpc, swapped_left, swapped_right]
    exact hlt.le

/-- Changing the priority of one position of an ordered heap leaves that
position loose. -/
theorem Ordered.loose_of_eq {n : Nat} {f g : Nat → P} {i : Nat} (h : Ordered n f)
    (hin : i < n) (heq : ∀ j, j < n → j ≠ i → g j = f j) : Loose n g i := by
  refine ⟨?_, ?_⟩
  · intro j hj hjn hji hpj
    have hp := parentIdx_lt hj
    rw [heq j hjn hji, heq _ (by omega) hpj]
    exact h j hj hjn
  · intro hi j hj hjn hpj
    have hp := parentIdx_lt hj
    have hpp := parentIdx_lt hi
    rw [heq j hjn (by omega), heq _ (by omega) (by omega)]
    calc f (parentIdx i) ≤ f i := h i hi hin
      _ = f (parentIdx j) := by rw [hpj]
      _ ≤ f j := h j hj hjn

/-- Appending a position to an ordered heap leaves the new position loose, and
it has no children. -/
theorem Ordered.loose_push {n : Nat} {f g : Nat → P} (h : Ordered n f)
    (heq : ∀ j, j < n → g j = f j) : Loose (n + 1) g n ∧ Below (n + 1) g n := by
  refine ⟨⟨?_, ?_⟩, ?_⟩
  · intro j hj hjn hji hpj
    have hp := parentIdx_lt hj
    rw [heq j (by omega), heq _ (by omega)]
    exact h j hj (by omega)
  · intro _ j hj hjn hpj
    have hp := parentIdx_lt hj
    omega
  · intro j hj hjn hpj
    have hp := parentIdx_lt hj
    omega

/-- Moving some entry into the root of an ordered heap and dropping the last
position leaves the root loose. -/
theorem Ordered.loose_root {n : Nat} {f g : Nat → P} (h : Ordered (n + 1) f)
    (heq : ∀ j, 0 < j → j < n → g j = f j) : Loose n g 0 := by
  refine ⟨?_, ?_⟩
  · intro j hj hjn _ hpj
    have hp := parentIdx_lt hj
    rw [heq j hj hjn, heq _ (by omega) (by omega)]
    exact h j hj (by omega)
  · intro h0
    omega

/-- The root of an ordered heap carries its least priority. -/
theorem Ordered.root_le {n : Nat} {f : Nat → P} (h : Ordered n f) (j : Nat) (hjn : j < n) :
    f 0 ≤ f j := by
  induction j using Nat.strongRecOn with
  | ind j ih =>
      by_cases hj : j = 0
      · rw [hj]
      · have hpos : 0 < j := by omega
        have hp := parentIdx_lt hpos
        exact le_trans (ih _ hp (by omega)) (h j hpos hjn)

end MinHeap
