import Mathlib.FieldTheory.Finite.Basic
import Mathlib.Tactic.Common

/-!
# Blind signatures under RSA

A residue raised to `e * d` is the residue again, also where it shares a factor with the
modulus: modulo a prime it is either zero or has an order that divides the prime less one,
and modulo two primes it follows from each.  So a number blinded by `r ^ e` and signed has
`r` as a factor of the signature, and an inverse of `r` takes it out.
-/

namespace Rsa

variable {p q e d k a : ℕ}

/-- A residue modulo a prime, raised to a power that is one modulo the prime less one. -/
theorem pow_modEq_of_prime (hp : p.Prime) (hpos : k ≠ 0) (hk : k ≡ 1 [MOD p - 1]) (a : ℕ) :
    a ^ k ≡ a [MOD p] := by
  by_cases hdvd : p ∣ a
  · have hzero : a ≡ 0 [MOD p] := (Nat.modEq_zero_iff_dvd).mpr hdvd
    calc a ^ k ≡ 0 ^ k [MOD p] := hzero.pow k
      _ = 0 := zero_pow hpos
      _ ≡ a [MOD p] := hzero.symm
  · obtain ⟨m, hm⟩ := (Nat.modEq_iff_dvd' (Nat.one_le_iff_ne_zero.mpr hpos)).mp hk.symm
    have hfermat : a ^ (p - 1) ≡ 1 [MOD p] := by
      rw [← Nat.totient_prime hp]
      exact Nat.ModEq.pow_totient ((Nat.Prime.coprime_iff_not_dvd hp).mpr hdvd).symm
    have hexp : k = (p - 1) * m + 1 := by omega
    calc a ^ k = (a ^ (p - 1)) ^ m * a := by rw [hexp, pow_succ, pow_mul]
      _ ≡ 1 ^ m * a [MOD p] := (hfermat.pow m).mul_right a
      _ = a := by rw [one_pow, one_mul]

/-- Two different primes less one do not both divide one. -/
theorem one_lt_lcm (hp : p.Prime) (hq : q.Prime) (hne : p ≠ q) : 1 < Nat.lcm (p - 1) (q - 1) := by
  have hp2 := hp.two_le
  have hq2 := hq.two_le
  have hpos : 0 < Nat.lcm (p - 1) (q - 1) := Nat.lcm_pos (by omega) (by omega)
  have hple := Nat.le_of_dvd hpos (Nat.dvd_lcm_left (p - 1) (q - 1))
  have hqle := Nat.le_of_dvd hpos (Nat.dvd_lcm_right (p - 1) (q - 1))
  omega

/-- **The RSA identity**, for all residues. -/
theorem pow_pow_modEq (hp : p.Prime) (hq : q.Prime) (hne : p ≠ q)
    (hed : e * d ≡ 1 [MOD Nat.lcm (p - 1) (q - 1)]) (a : ℕ) :
    (a ^ e) ^ d ≡ a [MOD p * q] := by
  have hpos : e * d ≠ 0 := by
    intro hzero
    rw [hzero] at hed
    have hone := (Nat.modEq_zero_iff_dvd).mp hed.symm
    exact Nat.ne_of_gt (one_lt_lcm hp hq hne) (Nat.dvd_one.mp hone)
  rw [← pow_mul]
  refine (Nat.modEq_and_modEq_iff_modEq_mul ((Nat.coprime_primes hp hq).mpr hne)).mp ⟨?_, ?_⟩
  · exact pow_modEq_of_prime hp hpos (hed.of_dvd (Nat.dvd_lcm_left _ _)) a
  · exact pow_modEq_of_prime hq hpos (hed.of_dvd (Nat.dvd_lcm_right _ _)) a

/-- **Unblinding.**  The signature of a blinded number, times an inverse of the blinding, is
the signature of the number. -/
theorem unblind {n r inv : ℕ} (hid : (r ^ e) ^ d ≡ r [MOD n]) (hinv : r * inv ≡ 1 [MOD n])
    (h : ℕ) : (h * (r ^ e % n) % n) ^ d % n * inv ≡ h ^ d [MOD n] := by
  have hblinded : h * (r ^ e % n) % n ≡ h * r ^ e [MOD n] :=
    (Nat.mod_modEq _ n).trans ((Nat.mod_modEq _ n).mul_left h)
  calc (h * (r ^ e % n) % n) ^ d % n * inv
      ≡ (h * r ^ e) ^ d * inv [MOD n] :=
        ((Nat.mod_modEq _ n).trans (hblinded.pow d)).mul_right inv
    _ = h ^ d * ((r ^ e) ^ d * inv) := by rw [mul_pow, mul_assoc]
    _ ≡ h ^ d * (r * inv) [MOD n] := (hid.mul_right inv).mul_left _
    _ ≡ h ^ d * 1 [MOD n] := hinv.mul_left _
    _ = h ^ d := mul_one _

end Rsa
