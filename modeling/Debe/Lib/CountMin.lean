import Mathlib.Algebra.Order.BigOperators.Group.List
import Mathlib.Algebra.Order.Monoid.Canonical.Defs

/-!
# Count-min sketches

Observations carry a key and a weight.  Every row of a sketch gives each key a cell, and a
cell holds the weight of all observations whose key falls on it.  The estimate of a key is
the least of its cells over the rows.

Whatever the rows do with the keys, a cell of a key holds at least the weight of the key, and
no cell shrinks when there are more observations.
-/

namespace CountMin

variable {ω κ ι β M : Type*}

section Tally

variable [AddCommMonoid M] (weight : ω → M) (P Q : ω → Prop) [DecidablePred P] [DecidablePred Q]

/-- The weight of the observations that meet a condition. -/
def tally (obs : List ω) : M :=
  (obs.map fun o => if P o then weight o else 0).sum

@[simp] theorem tally_nil : tally weight P [] = 0 := rfl

theorem tally_append (obs more : List ω) :
    tally weight P (obs ++ more) = tally weight P obs + tally weight P more := by
  rw [tally, List.map_append, List.sum_append]
  rfl

theorem tally_singleton (o : ω) : tally weight P [o] = if P o then weight o else 0 := by
  rw [tally, List.map_singleton, List.sum_singleton]

variable [PartialOrder M] [CanonicallyOrderedAdd M]

theorem tally_le_append (obs more : List ω) :
    tally weight P obs ≤ tally weight P (obs ++ more) := by
  rw [tally_append]
  exact le_self_add

variable [IsOrderedAddMonoid M]

/-- A weaker condition counts more. -/
theorem tally_le_tally {obs : List ω} (h : ∀ o ∈ obs, P o → Q o) :
    tally weight P obs ≤ tally weight Q obs := by
  refine List.sum_le_sum fun o ho => ?_
  by_cases hP : P o
  · rw [if_pos hP, if_pos (h o ho hP)]
  · rw [if_neg hP]
    exact zero_le

/-- No condition counts more than all observations. -/
theorem tally_le_total (obs : List ω) : tally weight P obs ≤ (obs.map weight).sum := by
  refine List.sum_le_sum fun o _ => ?_
  split
  · exact le_rfl
  · exact zero_le

end Tally

section Least

variable [LinearOrder M]

/-- The least of the values of the rows, from `top` down. -/
def least (top : M) (value : ι → M) (rows : List ι) : M :=
  rows.foldl (fun low i => min low (value i)) top

variable {top x : M} {value value' : ι → M} {rows : List ι} {i : ι}

theorem le_least_iff : x ≤ least top value rows ↔ x ≤ top ∧ ∀ i ∈ rows, x ≤ value i := by
  induction rows generalizing top with
  | nil => exact ⟨fun h => ⟨h, fun _ hi => absurd hi List.not_mem_nil⟩, fun h => h.1⟩
  | cons j rows ih =>
      have hcons : least top value (j :: rows) = least (min top (value j)) value rows := rfl
      rw [hcons, ih, le_min_iff, List.forall_mem_cons, and_assoc]

theorem least_le_top : least top value rows ≤ top :=
  (le_least_iff.mp le_rfl).1

theorem least_le (hi : i ∈ rows) : least top value rows ≤ value i :=
  (le_least_iff.mp le_rfl).2 i hi

theorem least_mono (h : ∀ i ∈ rows, value i ≤ value' i) :
    least top value rows ≤ least top value' rows :=
  le_least_iff.mpr ⟨least_le_top, fun i hi => (least_le hi).trans (h i hi)⟩

theorem least_congr (h : ∀ i ∈ rows, value i = value' i) :
    least top value rows = least top value' rows :=
  le_antisymm (least_mono fun i hi => (h i hi).le) (least_mono fun i hi => (h i hi).ge)

end Least

section Sketch

variable [AddCommMonoid M] [LinearOrder M] [DecidableEq β] (weight : ω → M) (key : ω → κ)
  (place : ι → κ → β)

/-- What a cell of a row holds. -/
def cell (i : ι) (b : β) (obs : List ω) : M :=
  tally weight (fun o => place i (key o) = b) obs

/-- The estimate of a key from the rows of the sketch. -/
def estimate (top : M) (rows : List ι) (k : κ) (obs : List ω) : M :=
  least top (fun i => cell weight key place i (place i k) obs) rows

variable {top : M} {rows : List ι} {obs : List ω} {i : ι} {k : κ}

/-- **No estimate is above a cell** of its key. -/
theorem estimate_le_cell (hi : i ∈ rows) :
    estimate weight key place top rows k obs ≤ cell weight key place i (place i k) obs :=
  least_le hi

variable [CanonicallyOrderedAdd M]

/-- **No estimate shrinks** when there are more observations. -/
theorem estimate_le_append (more : List ω) :
    estimate weight key place top rows k obs ≤
      estimate weight key place top rows k (obs ++ more) :=
  least_mono fun _ _ => tally_le_append weight _ obs more

variable [DecidableEq κ]

/-- The weight of a key. -/
def count (k : κ) (obs : List ω) : M :=
  tally weight (fun o => key o = k) obs

variable [IsOrderedAddMonoid M]

/-- The cell of a key counts the key. -/
theorem count_le_cell (i : ι) (k : κ) (obs : List ω) :
    count weight key k obs ≤ cell weight key place i (place i k) obs :=
  tally_le_tally weight _ _ fun _ _ hkey => congrArg (place i) hkey

/-- **No estimate is too low**, as long as the start is not below the weight of all. -/
theorem count_le_estimate (htop : (obs.map weight).sum ≤ top) :
    count weight key k obs ≤ estimate weight key place top rows k obs :=
  le_least_iff.mpr ⟨(tally_le_total weight _ obs).trans htop,
    fun i _ => count_le_cell weight key place i k obs⟩

end Sketch

end CountMin
