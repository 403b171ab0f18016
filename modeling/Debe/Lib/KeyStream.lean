import Debe.Lib.Records

/-!
# Key streams

A stream mode masks the bytes of a message with a key stream that depends on the
key and the IV only.  A message that is encrypted piece by piece, each piece with
a call of its own under the same IV, is masked with the beginning of the key
stream over and over: the whole of it is masked with the periodic stream whose
period is the size of a piece.
-/

namespace KeyStream

open Records

/-- Mask a message with a key stream. -/
def mask : (Nat → UInt8) → List UInt8 → List UInt8
  | _, [] => []
  | ks, b :: bs => (b ^^^ ks 0) :: mask (fun i => ks (i + 1)) bs

/-- The key stream that starts again every `n` bytes. -/
def restart (n : Nat) (ks : Nat → UInt8) (i : Nat) : UInt8 := ks (i % n)

variable {ks ks' : Nat → UInt8}

@[simp] theorem length_mask (ks : Nat → UInt8) (d : List UInt8) :
    (mask ks d).length = d.length := by
  induction d generalizing ks with
  | nil => rfl
  | cons b bs ih => simp [mask, ih]

theorem mask_append (ks : Nat → UInt8) (a d : List UInt8) :
    mask ks (a ++ d) = mask ks a ++ mask (fun i => ks (i + a.length)) d := by
  induction a generalizing ks with
  | nil => simp [mask]
  | cons b bs ih => simp [mask, ih, Nat.add_assoc]

theorem mask_congr {d : List UInt8} (h : ∀ i < d.length, ks i = ks' i) :
    mask ks d = mask ks' d := by
  induction d generalizing ks ks' with
  | nil => rfl
  | cons b bs ih =>
      have hrest : mask (fun i => ks (i + 1)) bs = mask (fun i => ks' (i + 1)) bs :=
        ih fun i hi => h (i + 1) (by simpa using hi)
      rw [mask, mask, h 0 (by simp), hrest]

/-- Masking twice is masking with both streams at once. -/
theorem mask_mask (ks ks' : Nat → UInt8) (d : List UInt8) :
    mask ks (mask ks' d) = mask (fun i => ks' i ^^^ ks i) d := by
  induction d generalizing ks ks' with
  | nil => rfl
  | cons b bs ih => simp [mask, ih, UInt8.xor_assoc]

theorem mask_eq_self_iff {d : List UInt8} : mask ks d = d ↔ ∀ i < d.length, ks i = 0 := by
  induction d generalizing ks with
  | nil => simp [mask]
  | cons b bs ih =>
      have hbyte : b ^^^ ks 0 = b ↔ ks 0 = 0 := by
        constructor
        · intro h
          have := congrArg (b ^^^ ·) h
          simpa [← UInt8.xor_assoc] using this
        · intro h
          rw [h, UInt8.xor_zero]
      rw [mask, List.cons.injEq, hbyte, ih]
      constructor
      · rintro ⟨hzero, hrest⟩ i hi
        cases i with
        | zero => exact hzero
        | succ i => exact hrest i (by simpa using hi)
      · intro h
        exact ⟨h 0 (by simp), fun i hi => h (i + 1) (by simpa using hi)⟩

/-- A message masked with one stream and unmasked with another comes back exactly
when the streams agree on it. -/
theorem mask_mask_eq_self_iff {d : List UInt8} :
    mask ks' (mask ks d) = d ↔ ∀ i < d.length, ks i = ks' i := by
  rw [mask_mask, mask_eq_self_iff]
  refine forall₂_congr fun i _ => ?_
  constructor
  · intro h
    have := congrArg (· ^^^ ks' i) h
    simpa [UInt8.xor_assoc] using this
  · intro h
    rw [h, UInt8.xor_self]

theorem restart_of_lt {n i : Nat} (h : i < n) : restart n ks i = ks i := by
  rw [restart, Nat.mod_eq_of_lt h]

theorem restart_add {n : Nat} (ks : Nat → UInt8) (i : Nat) :
    restart n ks (i + n) = restart n ks i := by
  rw [restart, restart, Nat.add_mod_right]

/-- **Piecewise masking** is masking with the stream that starts again at every
piece. -/
theorem flatMap_mask_pieces {n : Nat} (hn : 0 < n) (ks : Nat → UInt8) (d : List UInt8) :
    (pieces n d).flatMap (mask ks) = mask (restart n ks) d := by
  induction d using pieces_induction hn with
  | hnil => rfl
  | hstep d hne ih =>
      have hfirst : mask (restart n ks) (d.take n) = mask ks (d.take n) := by
        apply mask_congr
        intro i hi
        rw [List.length_take] at hi
        exact restart_of_lt (by omega)
      have hshift : mask (fun i => restart n ks (i + (d.take n).length)) (d.drop n) =
          mask (restart n ks) (d.drop n) := by
        apply mask_congr
        intro i hi
        rw [List.length_drop] at hi
        rw [List.length_take, Nat.min_eq_left (by omega), restart_add]
      rw [pieces_of_ne hn hne, List.flatMap_cons, ih]
      conv_rhs => rw [← List.take_append_drop n d, mask_append, hfirst, hshift]

end KeyStream
