import Mathlib.Algebra.BigOperators.Group.List.Basic
import Mathlib.Algebra.Order.Field.Basic
import Mathlib.Algebra.Order.Ring.Cast
import Mathlib.Data.Nat.Find
import Mathlib.Tactic.Linarith
import Mathlib.Tactic.Ring

/-!
# Water filling

The columns of an ascending list stand in `m` places.  The level is what each place gets when
the lowest columns have left with their own height and the rest is shared in equal parts, for
the fewest columns that can leave so that all others reach the level.

Pouring finds it by one column after another: a column that is below the share of its round
leaves, and the share of the others grows.
-/

namespace WaterFill

variable {α : Type*} [Field α]

/-- The part of each place when the first `j` columns have left. -/
def quotient (fs : List α) (m j : ℕ) : α :=
  (fs.drop j).sum / (m - j)

/-- The part of each place when a total is poured and the first `j` columns have left. -/
def share (total : α) (fs : List α) (m j : ℕ) : α :=
  (total - (fs.take j).sum) / (m - j)

variable {total total' f : α} {fs : List α} {m i j : ℕ}

theorem share_zero : share total fs m 0 = total / m := by
  rw [share, List.take_zero, List.sum_nil, sub_zero, Nat.cast_zero, sub_zero]

/-- The share of the whole is the quotient. -/
theorem share_sum : share fs.sum fs m j = quotient fs m j := by
  rw [share, quotient, ← List.sum_take_add_sum_drop fs j, add_sub_cancel_left]

/-- A larger total gives each place the same part of the difference. -/
theorem share_add : share total' fs m j = share total fs m j + (total' - total) / (m - j) := by
  rw [share, share, ← add_div]
  congr 1
  ring

section Pouring

variable [LinearOrder α]

/-- Every column after the first `j` reaches the quotient. -/
def Levelled (fs : List α) (m j : ℕ) : Prop :=
  ∀ f ∈ fs.drop j, quotient fs m j ≤ f

instance (fs : List α) (m j : ℕ) : Decidable (Levelled fs m j) :=
  inferInstanceAs (Decidable (∀ f ∈ fs.drop j, quotient fs m j ≤ f))

theorem levelled_length (fs : List α) (m : ℕ) : Levelled fs m fs.length := by
  intro f hf
  rw [List.drop_length] at hf
  exact absurd hf List.not_mem_nil

theorem exists_levelled (fs : List α) (m : ℕ) : ∃ j, Levelled fs m j :=
  ⟨fs.length, levelled_length fs m⟩

/-- The level of the columns over `m` places. -/
def level (fs : List α) (m : ℕ) : α :=
  quotient fs m (Nat.find (exists_levelled fs m))

/-- In an ascending list the first column that is left decides. -/
theorem levelled_iff (hsorted : fs.Pairwise (· ≤ ·)) (hf : fs[j]? = some f) :
    Levelled fs m j ↔ quotient fs m j ≤ f := by
  obtain ⟨hj, rfl⟩ := List.getElem?_eq_some_iff.mp hf
  have hdrop := hsorted.drop (i := j)
  rw [List.drop_eq_getElem_cons hj, List.pairwise_cons] at hdrop
  rw [Levelled, List.drop_eq_getElem_cons hj]
  constructor
  · intro h
    exact h _ List.mem_cons_self
  · intro h g hg
    rcases List.mem_cons.mp hg with rfl | htail
    · exact h
    · exact h.trans (hdrop.1 g htail)

/-- Pouring has passed the first `j` columns: each was below the share of its round. -/
def Passed (total : α) (fs : List α) (m j : ℕ) : Prop :=
  ∀ i < j, ∃ f, fs[i]? = some f ∧ f < share total fs m i

/-- Nothing has passed at the start. -/
theorem passed_zero : Passed total fs m 0 :=
  fun _ hi => absurd hi (Nat.not_lt_zero _)

theorem Passed.succ (h : Passed total fs m j) (hf : fs[j]? = some f)
    (hlt : f < share total fs m j) : Passed total fs m (j + 1) := by
  intro i hi
  rcases Nat.lt_succ_iff_lt_or_eq.mp hi with hlow | rfl
  · exact h i hlow
  · exact ⟨f, hf, hlt⟩

/-- A column that passes is one at which the others do not reach it. -/
theorem Passed.not_levelled (hsorted : fs.Pairwise (· ≤ ·)) (h : Passed fs.sum fs m j)
    (hi : i < j) : ¬Levelled fs m i := by
  obtain ⟨f, hf, hlt⟩ := h i hi
  rw [levelled_iff hsorted hf, ← share_sum]
  exact not_le.mpr hlt

/-- Pouring passes every column below the level. -/
theorem passed_find (hsorted : fs.Pairwise (· ≤ ·)) :
    Passed fs.sum fs m (Nat.find (exists_levelled fs m)) := by
  intro i hi
  have hlen : i < fs.length := Nat.lt_of_lt_of_le hi (Nat.find_min' _ (levelled_length fs m))
  have hf : fs[i]? = some fs[i] := List.getElem?_eq_getElem hlen
  have hnot := Nat.find_min (exists_levelled fs m) hi
  rw [levelled_iff hsorted hf, ← share_sum] at hnot
  exact ⟨fs[i], hf, not_le.mp hnot⟩

/-- **Pouring finds the level**: it is the share at the first column that is not below it. -/
theorem Passed.level_eq (hsorted : fs.Pairwise (· ≤ ·)) (h : Passed fs.sum fs m j)
    (hf : fs[j]? = some f) (hle : share fs.sum fs m j ≤ f) :
    level fs m = share fs.sum fs m j := by
  have hlevelled : Levelled fs m j := (levelled_iff hsorted hf).mpr (share_sum.symm.trans_le hle)
  have hfind : Nat.find (exists_levelled fs m) = j :=
    (Nat.find_eq_iff _).mpr ⟨hlevelled, fun i hi => h.not_levelled hsorted hi⟩
  rw [level, hfind, share_sum]

variable [IsStrictOrderedRing α]

theorem places_pos (hj : j < m) : (0 : α) < m - j :=
  sub_pos.mpr (Nat.cast_lt.mpr hj)

/-- The shares of all places are what is left of the total. -/
theorem share_mul (hj : j < m) : share total fs m j * (m - j) = total - (fs.take j).sum :=
  div_mul_cancel₀ _ (places_pos hj).ne'

/-- The share grows when a column below it leaves. -/
theorem share_lt_succ (hf : fs[j]? = some f) (hlt : f < share total fs m j) (hj : j + 1 < m) :
    share total fs m j < share total fs m (j + 1) := by
  have hmul : share total fs m j * (m - j) = total - (fs.take j).sum :=
    share_mul (Nat.lt_of_succ_lt hj)
  obtain ⟨hlen, rfl⟩ := List.getElem?_eq_some_iff.mp hf
  rw [share.eq_def total fs m (j + 1), lt_div_iff₀ (places_pos hj), List.sum_take_succ fs j hlen,
    Nat.cast_succ]
  linarith

theorem Passed.share_le (h : Passed total fs m j) (hj : j < m) (hi : i ≤ j) :
    share total fs m i ≤ share total fs m j := by
  induction j, hi using Nat.le_induction with
  | base => exact le_rfl
  | succ k _ ih =>
      have hk : Passed total fs m k := fun l hl => h l (Nat.lt_succ_of_lt hl)
      obtain ⟨f, hf, hlt⟩ := h k (Nat.lt_succ_self k)
      exact (ih hk (Nat.lt_of_succ_lt hj)).trans (share_lt_succ hf hlt hj).le

theorem share_mono (htotal : total ≤ total') (hj : j < m) :
    share total fs m j ≤ share total' fs m j :=
  div_le_div_of_nonneg_right (sub_le_sub_right htotal _) (places_pos hj).le

/-- What passes under a total passes under a larger one. -/
theorem Passed.of_le (h : Passed total fs m j) (htotal : total ≤ total') (hj : j ≤ m) :
    Passed total' fs m j := by
  intro i hi
  obtain ⟨f, hf, hlt⟩ := h i hi
  exact ⟨f, hf, hlt.trans_le (share_mono htotal (Nat.lt_of_lt_of_le hi hj))⟩

/-- The last column never leaves. -/
theorem Passed.lt_length (h : Passed total fs m j) (htotal : total ≤ fs.sum) (hne : fs ≠ [])
    (hpos : ∀ f ∈ fs, 0 ≤ f) (hm : fs.length ≤ m) : j < fs.length := by
  by_contra hlong
  have hlen : 0 < fs.length := List.length_pos_iff.mpr hne
  obtain ⟨f, hf, hlt⟩ := h (fs.length - 1) (by omega)
  have hi : fs.length - 1 < m := by omega
  obtain ⟨hlast, hget⟩ := List.getElem?_eq_some_iff.mp hf
  have hdrop : fs.drop (fs.length - 1) = [f] := by
    rw [List.drop_eq_getElem_cons hlast, hget, List.drop_eq_nil_of_le (by omega)]
  have hplaces : (1 : α) ≤ m - (fs.length - 1 : ℕ) := by
    rw [le_sub_iff_add_le, add_comm]
    exact_mod_cast hi
  have hle : quotient fs m (fs.length - 1) ≤ f := by
    rw [quotient, hdrop, List.sum_singleton]
    exact div_le_self (hpos f (List.mem_of_getElem? hf)) hplaces
  exact absurd (hlt.trans_le ((share_mono htotal hi).trans (share_sum.trans_le hle))) (lt_irrefl f)

/-- **No share is above the level**, as long as only columns below their share have left. -/
theorem Passed.share_le_level (hsorted : fs.Pairwise (· ≤ ·)) (hne : fs ≠ [])
    (hpos : ∀ f ∈ fs, 0 ≤ f) (hm : fs.length ≤ m) (h : Passed fs.sum fs m j) :
    share fs.sum fs m j ≤ level fs m := by
  have hlast := (passed_find (m := m) hsorted).lt_length le_rfl hne hpos hm
  have hj : j ≤ Nat.find (exists_levelled fs m) := by
    by_contra hlt
    exact h.not_levelled hsorted (not_le.mp hlt) (Nat.find_spec (exists_levelled fs m))
  rw [level, ← share_sum]
  exact (passed_find hsorted).share_le (Nat.lt_of_lt_of_le hlast hm) hj

end Pouring

end WaterFill
