import Mathlib.Data.Nat.Bitwise
import Mathlib.Data.Nat.Size
import Mathlib.Logic.Function.Basic
import Mathlib.Tactic.Common

/-!
# Circular buffers

A circular buffer of `n` slots with a read index and a write index keeps one slot free, so
that equal indices mean that it is empty.  Here are the arithmetic of such indices, also in
the form of bit masks when `n` is a power of two, and what it means that the slots from the
read index on hold a list of elements.
-/

namespace CircularBuffer

variable {n a b i j : Nat}

/-- The index after `i`. -/
def next (n i : Nat) : Nat := if i + 1 = n then 0 else i + 1

/-- How many steps lead from `a` to `b`. -/
def gap (n a b : Nat) : Nat := if a ≤ b then b - a else b + n - a

theorem next_lt (hi : i < n) : next n i < n := by
  unfold next
  split <;> omega

theorem gap_lt (ha : a < n) (hb : b < n) : gap n a b < n := by
  unfold gap
  split <;> omega

@[simp] theorem gap_self : gap n a a = 0 := by simp [gap]

theorem gap_eq_zero (ha : a < n) : gap n a b = 0 ↔ a = b := by
  unfold gap
  split <;> omega

theorem gap_inj (ha : a < n) (hi : i < n) (hj : j < n) : gap n a i = gap n a j ↔ i = j := by
  unfold gap
  split <;> split <;> omega

/-- Writing one more element. -/
theorem gap_next_right (ha : a < n) (h : gap n a b + 1 < n) :
    gap n a (next n b) = gap n a b + 1 := by
  revert h
  unfold gap next
  split <;> split <;> split <;> omega

/-- The write index may not catch up with the read index. -/
theorem next_eq_iff (ha : a < n) (hb : b < n) : next n b = a ↔ gap n a b + 1 = n := by
  unfold gap next
  split <;> split <;> omega

/-- Reading one element. -/
theorem gap_next_left (ha : a < n) (hb : b < n) (h : a ≠ b) :
    gap n (next n a) b + 1 = gap n a b := by
  unfold gap next
  split <;> split <;> split <;> omega

/-- The slot just read is the last one before the read index. -/
theorem gap_next_self (ha : a < n) : gap n (next n a) a + 1 = n := by
  unfold gap next
  split <;> split <;> omega

/-! ## Bit masks -/

theorem succ_and_mask {k : Nat} (hi : i < 2 ^ k) : (i + 1) &&& (2 ^ k - 1) = next (2 ^ k) i := by
  rw [Nat.and_two_pow_sub_one_eq_mod, next]
  split
  · next h => rw [h, Nat.mod_self]
  · next h => exact Nat.mod_eq_of_lt (by omega)

/-- The difference of two indices, computed on words of `w` bits. -/
theorem sub_and_mask {k w : Nat} (hk : k ≤ w) (ha : a < 2 ^ k) (hb : b < 2 ^ k) :
    ((b + 2 ^ w - a) % 2 ^ w) &&& (2 ^ k - 1) = gap (2 ^ k) a b := by
  obtain ⟨m, hm⟩ : 2 ^ k ∣ 2 ^ w := Nat.pow_dvd_pow 2 hk
  have hm0 : m ≠ 0 := by
    rintro rfl
    exact absurd hm (by simp)
  obtain ⟨m, rfl⟩ := Nat.exists_eq_succ_of_ne_zero hm0
  rw [Nat.and_two_pow_sub_one_eq_mod, Nat.mod_mod_of_dvd _ (Nat.pow_dvd_pow 2 hk), hm, gap]
  rw [Nat.mul_succ]
  split
  · next h =>
      have hsum : b + (2 ^ k * m + 2 ^ k) - a = b - a + 2 ^ k * (m + 1) := by
        rw [Nat.mul_succ]
        omega
      rw [hsum, Nat.add_mul_mod_self_left, Nat.mod_eq_of_lt (by omega)]
  · next h =>
      have hsum : b + (2 ^ k * m + 2 ^ k) - a = b + 2 ^ k - a + 2 ^ k * m := by omega
      rw [hsum, Nat.add_mul_mod_self_left, Nat.mod_eq_of_lt (by omega)]

/-! ## Powers of two by smearing bits -/

/-- Every one of `y` is repeated on the `w - 1` places below it. -/
def Smeared (y w r : Nat) : Prop := ∀ j, r.testBit j = true ↔ ∃ i < w, y.testBit (j + i) = true

theorem smeared_one (y : Nat) : Smeared y 1 y := by
  intro j
  simp

/-- Oring with itself moved by the width reached doubles the width. -/
theorem Smeared.double {y w r : Nat} (h : Smeared y w r) :
    Smeared y (w + w) (r ||| r >>> w) := by
  intro j
  rw [Nat.testBit_or, Nat.testBit_shiftRight, Bool.or_eq_true, h j, h (w + j)]
  constructor
  · rintro (⟨i, hi, hbit⟩ | ⟨i, hi, hbit⟩)
    · exact ⟨i, by omega, hbit⟩
    · exact ⟨w + i, by omega, by rwa [← Nat.add_assoc, Nat.add_comm j w]⟩
  · rintro ⟨i, hi, hbit⟩
    by_cases hlow : i < w
    · exact .inl ⟨i, hlow, hbit⟩
    · refine .inr ⟨i - w, by omega, ?_⟩
      have hplace : w + j + (i - w) = j + i := by omega
      rwa [hplace]

/-- Smeared over its whole width a number is all ones. -/
theorem Smeared.eq_ones {y w r : Nat} (h : Smeared y w r) (hy : y < 2 ^ w) :
    r = 2 ^ y.size - 1 := by
  apply Nat.eq_of_testBit_eq
  intro j
  rw [Nat.testBit_two_pow_sub_one, Bool.eq_iff_iff, h j, decide_eq_true_iff, Nat.lt_size]
  constructor
  · rintro ⟨i, _, hbit⟩
    exact (Nat.pow_le_pow_right (by omega) (Nat.le_add_right j i)).trans
      (Nat.ge_two_pow_of_testBit hbit)
  · intro hle
    obtain ⟨i, hi, hbit⟩ := Nat.exists_ge_and_testBit_of_ge_two_pow hle
    have hiw : i < w := by
      by_contra hge
      have htop : y.testBit i = false :=
        Nat.testBit_lt_two_pow (hy.trans_le (Nat.pow_le_pow_right (by omega) (by omega)))
      rw [htop] at hbit
      exact absurd hbit (by simp)
    exact ⟨i - j, by omega, by rwa [Nat.add_sub_cancel' hi]⟩

/-- The least power of two that is not below a number. -/
theorem le_two_pow_size_pred {x : Nat} (hx : 0 < x) :
    x ≤ 2 ^ (x - 1).size ∧ ∀ k, x ≤ 2 ^ k → 2 ^ (x - 1).size ≤ 2 ^ k := by
  constructor
  · have hlt := Nat.lt_size_self (x - 1)
    omega
  · intro k hk
    have hsize : (x - 1).size ≤ k := Nat.size_le.mpr (by omega)
    exact Nat.pow_le_pow_right (by omega) hsize

/-! ## Elements in slots -/

variable {β : Type*} {slots : Nat → Option β} {l : List (Option β)} {o : Option β} {x : β}

/-- The slots from the index `front` on hold `l`, and no other slot holds anything.  A slot
within `l` may be empty. -/
def Holds (n : Nat) (slots : Nat → Option β) (front : Nat) (l : List (Option β)) : Prop :=
  ∀ i < n, slots i = (l[gap n front i]?).join

theorem holds_nil (h : ∀ i < n, slots i = none) : Holds n slots a [] := by
  intro i hi
  simp [h i hi]

theorem Holds.head (h : Holds n slots a (o :: l)) (ha : a < n) : slots a = o := by
  simp [h a ha]

/-- A slot behind the list is empty. -/
theorem Holds.behind (h : Holds n slots a l) (hi : i < n) (hgap : l.length ≤ gap n a i) :
    slots i = none := by
  simp [h i hi, List.getElem?_eq_none hgap]

/-- Filling the slot behind the list. -/
theorem Holds.construct (h : Holds n slots a l) (ha : a < n) (hj : j < n)
    (hgap : gap n a j = l.length) :
    Holds n (Function.update slots j (some x)) a (l ++ [some x]) := by
  intro i hi
  by_cases heq : i = j
  · simp [heq, hgap]
  · have hne : gap n a i ≠ l.length := by
      intro hsame
      exact heq ((gap_inj ha hi hj).mp (hsame.trans hgap.symm))
    rw [Function.update_of_ne heq, h i hi, List.getElem?_append]
    split
    · rfl
    · have hlen : l.length ≤ gap n a i := by omega
      have hpast : [some x].length ≤ gap n a i - l.length := by
        simp only [List.length_singleton]
        omega
      rw [List.getElem?_eq_none hlen, List.getElem?_eq_none hpast]

/-- Emptying the slot at the head of the list. -/
theorem Holds.destroy (h : Holds n slots a (o :: l)) (ha : a < n) :
    Holds n (Function.update slots a none) a (none :: l) := by
  intro i hi
  by_cases heq : i = a
  · simp [heq]
  · have hgap : gap n a i ≠ 0 := by
      intro hzero
      exact heq ((gap_eq_zero ha).mp hzero).symm
    obtain ⟨g, hg⟩ := Nat.exists_eq_succ_of_ne_zero hgap
    rw [Function.update_of_ne heq, h i hi, hg]
    simp

/-- Moving the read index past an empty slot. -/
theorem Holds.release (h : Holds n slots a (none :: l)) (ha : a < n) (hl : l.length < n) :
    Holds n slots (next n a) l := by
  intro i hi
  by_cases heq : i = a
  · have hself := gap_next_self ha
    have hlen : l.length ≤ gap n (next n a) a := by omega
    rw [heq, h a ha, List.getElem?_eq_none hlen]
    simp
  · rw [h i hi, ← gap_next_left ha hi (Ne.symm heq)]
    simp

end CircularBuffer
