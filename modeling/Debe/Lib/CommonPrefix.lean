import Mathlib.Data.List.Basic
import Mathlib.Data.Nat.Bitwise
import Debe.Lib.LittleEndian

/-!
# Common prefixes

The length of the longest common prefix of two lists, and how a machine finds
it a word at a time: when two little-endian words differ, the number of
trailing zero bits of their exclusive or, divided by eight, is the number of
leading bytes the two byte strings share.
-/

namespace CommonPrefix

open LittleEndian

section Lists

variable {α : Type*} [DecidableEq α]

/-- How many leading entries two lists share. -/
def common : List α → List α → Nat
  | x :: xs, y :: ys => if x = y then common xs ys + 1 else 0
  | _, _ => 0

theorem common_le_length (xs ys : List α) : common xs ys ≤ xs.length := by
  induction xs generalizing ys with
  | nil => simp [common]
  | cons x xs ih =>
      cases ys with
      | nil => simp [common]
      | cons y ys =>
          have hrest := ih ys
          rw [common, List.length_cons]
          split <;> omega

/-- The shared entries are the same in both lists. -/
theorem take_common (xs ys : List α) :
    xs.take (common xs ys) = ys.take (common xs ys) := by
  induction xs generalizing ys with
  | nil => simp [common]
  | cons x xs ih =>
      cases ys with
      | nil => simp [common]
      | cons y ys =>
          rw [common]
          split
          · rename_i h
            rw [List.take_succ_cons, List.take_succ_cons, h, ih]
          · simp

/-- No longer prefix is shared. -/
theorem le_common {xs ys : List α} {k : Nat} (h : xs.take k = ys.take k)
    (hk : k ≤ xs.length) : k ≤ common xs ys := by
  induction k generalizing xs ys with
  | zero => exact Nat.zero_le _
  | succ k ih =>
      cases xs with
      | nil => simp at hk
      | cons x xs =>
          cases ys with
          | nil => simp at h
          | cons y ys =>
              rw [List.take_succ_cons, List.take_succ_cons, List.cons_eq_cons] at h
              rw [common, if_pos h.1]
              have hrest := ih h.2 (by simpa using hk)
              omega

/-- Comparing two prefixes decides whether so many entries are shared. -/
theorem take_eq_take_iff {xs ys : List α} {k : Nat} (hk : k ≤ xs.length) :
    xs.take k = ys.take k ↔ k ≤ common xs ys := by
  constructor
  · intro h
    exact le_common h hk
  · intro h
    have hshared := congrArg (List.take k) (take_common xs ys)
    rwa [List.take_take, List.take_take, Nat.min_eq_left h] at hshared

/-- The entries known to be shared can be skipped. -/
theorem common_eq_add_drop {xs ys : List α} {k : Nat} (h : k ≤ common xs ys) :
    common xs ys = k + common (xs.drop k) (ys.drop k) := by
  induction k generalizing xs ys with
  | zero => simp
  | succ k ih =>
      cases xs with
      | nil => simp [common] at h
      | cons x xs =>
          cases ys with
          | nil => simp [common] at h
          | cons y ys =>
              rw [common] at h ⊢
              split
              · rename_i hxy
                rw [if_pos hxy] at h
                rw [List.drop_succ_cons, List.drop_succ_cons,
                  ih (Nat.le_of_succ_le_succ h)]
                omega
              · rename_i hxy
                rw [if_neg hxy] at h
                omega

/-- A difference inside the first `k` entries is found by looking at these alone. -/
theorem common_take {xs ys : List α} {k : Nat} (h : common xs ys < k) :
    common (xs.take k) (ys.take k) = common xs ys := by
  induction k generalizing xs ys with
  | zero => omega
  | succ k ih =>
      cases xs with
      | nil => simp [common]
      | cons x xs =>
          cases ys with
          | nil => simp [common]
          | cons y ys =>
              rw [common] at h
              rw [List.take_succ_cons, List.take_succ_cons, common, common]
              split
              · rename_i hxy
                rw [if_pos hxy] at h
                rw [ih (Nat.lt_of_succ_lt_succ h)]
              · rfl

end Lists

/-! ## Words -/

/-- The number of trailing zero bits of a `w`-bit word, `w` when it is zero. -/
def ctz : Nat → Nat → Nat
  | 0, _ => 0
  | w+1, v => if v % 2 = 1 then 0 else ctz w (v / 2) + 1

theorem ctz_two_mul (w v : Nat) : ctz (w + 1) (2 * v) = ctz w v + 1 := by
  have hlow : 2 * v % 2 ≠ 1 := by omega
  have hhigh : 2 * v / 2 = v := by omega
  rw [ctz, if_neg hlow, hhigh]

theorem ctz_two_pow_mul (w k v : Nat) : ctz (w + k) (2 ^ k * v) = ctz w v + k := by
  induction k with
  | zero => simp
  | succ k ih =>
      have hv : 2 ^ (k + 1) * v = 2 * (2 ^ k * v) := by ring
      rw [hv, ← Nat.add_assoc, ctz_two_mul, ih, Nat.add_assoc]

/-- A bit set among the `k` lowest is found there. -/
theorem ctz_lt {w k v : Nat} (hk : k ≤ w) (h : v % 2 ^ k ≠ 0) : ctz w v < k := by
  induction k generalizing w v with
  | zero => simp [Nat.mod_one] at h
  | succ k ih =>
      cases w with
      | zero => omega
      | succ w =>
          rw [ctz]
          split
          · omega
          · rename_i hlow
            have hhigh : v / 2 % 2 ^ k ≠ 0 := by
              intro hzero
              apply h
              rw [pow_succ, Nat.mul_comm, Nat.mod_mul, hzero]
              omega
            have hrest := ih (Nat.le_of_succ_le_succ hk) hhigh
            omega

/-- Equally long byte strings are equal when the words they hold are. -/
theorem decode_inj {xs ys : List UInt8} (hlen : xs.length = ys.length) :
    decode xs = decode ys ↔ xs = ys := by
  constructor
  · intro h
    rw [← encode_decode xs, ← encode_decode ys, hlen, h]
  · intro h
    rw [h]

/-- The exclusive or of two words is taken byte by byte. -/
theorem decode_cons_xor (x y : UInt8) (xs ys : List UInt8) :
    decode (x :: xs) ^^^ decode (y :: ys) =
      (x.toNat ^^^ y.toNat) + 2 ^ 8 * (decode xs ^^^ decode ys) := by
  have hx : x.toNat < 2 ^ 8 := x.toNat_lt
  have hy : y.toNat < 2 ^ 8 := y.toNat_lt
  have hlow : (decode (x :: xs) ^^^ decode (y :: ys)) % 2 ^ 8 = x.toNat ^^^ y.toNat := by
    rw [Nat.xor_mod_two_pow, decode, decode]
    congr 1 <;> omega
  have hhigh : (decode (x :: xs) ^^^ decode (y :: ys)) / 2 ^ 8 = decode xs ^^^ decode ys := by
    rw [Nat.xor_div_two_pow, decode, decode]
    congr 1 <;> omega
  rw [← hlow, ← hhigh]
  exact (Nat.mod_add_div _ _).symm

/-- **The trailing zero bytes of the exclusive or of two words count the leading
bytes they share.** -/
theorem ctz_xor_div_eight {xs ys : List UInt8} (hlen : xs.length = ys.length)
    (hne : xs ≠ ys) : ctz (8 * xs.length) (decode xs ^^^ decode ys) / 8 = common xs ys := by
  induction xs generalizing ys with
  | nil =>
      cases ys with
      | nil => exact absurd rfl hne
      | cons y ys => simp at hlen
  | cons x xs ih =>
      cases ys with
      | nil => simp at hlen
      | cons y ys =>
          have hrest : xs.length = ys.length := by simpa using hlen
          rw [decode_cons_xor, common, List.length_cons, Nat.mul_succ]
          by_cases hxy : x = y
          · have htail : xs ≠ ys := by
              intro h
              exact hne (by rw [hxy, h])
            rw [if_pos hxy, hxy, Nat.xor_self, Nat.zero_add, ctz_two_pow_mul,
              ← ih hrest htail]
            omega
          · have hlt : x.toNat ^^^ y.toNat < 2 ^ 8 := Nat.xor_lt_two_pow x.toNat_lt y.toNat_lt
            have hpos : x.toNat ^^^ y.toNat ≠ 0 := by
              intro h
              exact hxy (UInt8.toNat.inj (Nat.xor_eq_zero_iff.mp h))
            have hfound : ctz (8 * xs.length + 8)
                ((x.toNat ^^^ y.toNat) + 2 ^ 8 * (decode xs ^^^ decode ys)) < 8 := by
              refine ctz_lt (by omega) ?_
              rw [Nat.add_mul_mod_self_left, Nat.mod_eq_of_lt hlt]
              exact hpos
            rw [if_neg hxy]
            omega

end CommonPrefix
