import Mathlib.Data.List.Basic
import Mathlib.Tactic.Ring

/-!
# Little-endian byte strings

Fixed-width unsigned words laid out least significant byte first, the way a
`memcpy` of an integer lays them out on a little-endian machine.  `encode w n`
is the `w`-byte image of `n`, so it keeps `n` modulo `256 ^ w`, and `decode`
reads any byte string back.
-/

namespace LittleEndian

/-- The `w` low bytes of `n`, least significant first. -/
def encode : Nat → Nat → List UInt8
  | 0, _ => []
  | w+1, n => UInt8.ofNat n :: encode w (n / 256)

/-- The number whose bytes, least significant first, are the given ones. -/
def decode : List UInt8 → Nat
  | [] => 0
  | b :: bs => b.toNat + 256 * decode bs

@[simp] theorem length_encode (w n : Nat) : (encode w n).length = w := by
  induction w generalizing n with
  | zero => rfl
  | succ w ih => simp [encode, ih]

/-- Reading a word back gives it modulo its width. -/
theorem decode_encode (w n : Nat) : decode (encode w n) = n % 256 ^ w := by
  induction w generalizing n with
  | zero => simp [encode, decode, Nat.mod_one]
  | succ w ih =>
      have hbyte : (UInt8.ofNat n).toNat = n % 256 := by simp
      rw [encode, decode, ih, hbyte, pow_succ, Nat.mul_comm (256 ^ w), Nat.mod_mul]

/-- A word that fits its width survives the round trip. -/
theorem decode_encode_of_lt {w n : Nat} (h : n < 256 ^ w) : decode (encode w n) = n := by
  rw [decode_encode, Nat.mod_eq_of_lt h]

/-- Every byte string is the image of the number it holds. -/
theorem encode_decode (bs : List UInt8) : encode bs.length (decode bs) = bs := by
  induction bs with
  | nil => rfl
  | cons b bs ih =>
      have hlt : b.toNat < 256 := b.toNat_lt
      have hbyte : UInt8.ofNat (b.toNat + 256 * decode bs) = b := by
        apply UInt8.toNat.inj
        rw [UInt8.toNat_ofNat']
        omega
      have hrest : (b.toNat + 256 * decode bs) / 256 = decode bs := by omega
      rw [List.length_cons, decode, encode, hbyte, hrest, ih]

/-- A word stays below the next power of its width. -/
theorem decode_lt (bs : List UInt8) : decode bs < 256 ^ bs.length := by
  induction bs with
  | nil => simp [decode]
  | cons b bs ih =>
      have hbyte : b.toNat < 256 := b.toNat_lt
      rw [decode, List.length_cons, pow_succ]
      omega

/-- The low bytes alone make a number no larger. -/
theorem decode_take_le (k : Nat) (bs : List UInt8) : decode (bs.take k) ≤ decode bs := by
  induction bs generalizing k with
  | nil => simp
  | cons b bs ih =>
      cases k with
      | zero => simp [decode]
      | succ k =>
          have hrest := ih k
          rw [List.take_succ_cons, decode, decode]
          omega

end LittleEndian
