import Debe.Lib.Blocks
import Mathlib.Data.List.TakeDrop

/-!
# Cipher block chaining

Each block is combined with the ciphertext of the one before it and then goes through the
block function, the first block being combined with the initialization vector.  Undoing it
needs the inverse of the block function, and that combining twice with the same block does
nothing; it works in both directions.

A string of whole blocks is cut into its blocks and put together again.
-/

namespace Cbc

/-! ## Chaining -/

section Chaining

variable {B : Type*} (x : B → B → B)

/-- Encrypt a list of blocks with the block function `f`. -/
def enc (f : B → B) : B → List B → List B
  | _, [] => []
  | iv, b :: bs => f (x b iv) :: enc f (f (x b iv)) bs

/-- Decrypt a list of blocks with the inverse block function `g`. -/
def dec (g : B → B) : B → List B → List B
  | _, [] => []
  | iv, c :: cs => x (g c) iv :: dec g c cs

@[simp] theorem length_enc (f : B → B) (iv : B) (bs : List B) :
    (enc x f iv bs).length = bs.length := by
  induction bs generalizing iv with
  | nil => rfl
  | cons b bs ih => rw [enc, List.length_cons, ih, List.length_cons]

@[simp] theorem length_dec (g : B → B) (iv : B) (cs : List B) :
    (dec x g iv cs).length = cs.length := by
  induction cs generalizing iv with
  | nil => rfl
  | cons c cs ih => rw [dec, List.length_cons, ih, List.length_cons]

variable {x} {f g : B → B}

/-- **What is encrypted** is decrypted to what it was. -/
theorem dec_enc (hx : ∀ a b, x (x a b) b = a) (hgf : ∀ b, g (f b) = b) (iv : B) (bs : List B) :
    dec x g iv (enc x f iv bs) = bs := by
  induction bs generalizing iv with
  | nil => rfl
  | cons b bs ih => rw [enc, dec, hgf, hx, ih]

/-- **What is decrypted** is encrypted to what it was. -/
theorem enc_dec (hx : ∀ a b, x (x a b) b = a) (hfg : ∀ b, f (g b) = b) (iv : B) (cs : List B) :
    enc x f iv (dec x g iv cs) = cs := by
  induction cs generalizing iv with
  | nil => rfl
  | cons c cs ih => rw [dec, enc, hx, hfg, ih]

end Chaining

/-! ## Strings of blocks -/

section Strings

variable {β : Type*} {n : Nat}

/-- A block of `n` elements. -/
abbrev Block (β : Type*) (n : Nat) := { bs : List β // bs.length = n }

/-- The whole blocks of a string; what is left over is not among them. -/
def cut [Inhabited β] (n : Nat) (d : List β) : List (Block β n) :=
  (List.range (d.length / n)).map fun i =>
    ⟨(d.drop (i * n)).takeD n default, List.takeD_length _ _ _⟩

/-- The string of the blocks. -/
def join (bs : List (Block β n)) : List β := bs.flatMap Subtype.val

theorem length_join (bs : List (Block β n)) : (join bs).length = bs.length * n :=
  Blocks.length_flatMap fun b _ => b.2

theorem length_cut [Inhabited β] (n : Nat) (d : List β) : (cut n d).length = d.length / n := by
  rw [cut, List.length_map, List.length_range]

/-- Blocks that were put together are cut again. -/
theorem cut_join [Inhabited β] (hn : 0 < n) (bs : List (Block β n)) : cut n (join bs) = bs := by
  have hnum : (join bs).length / n = bs.length := by
    rw [length_join, Nat.mul_div_cancel _ hn]
  rw [cut, hnum]
  refine List.ext_getElem (by simp) fun i hi hi' => ?_
  have hblock : ((join bs).drop (i * n)).take n = bs[i].1 :=
    Blocks.block (fun b _ => b.2) (List.getElem?_eq_getElem hi')
  have hroom : n ≤ ((join bs).drop (i * n)).length := by
    have hlen := congrArg List.length hblock
    rw [List.length_take, bs[i].2] at hlen
    omega
  rw [List.getElem_map, List.getElem_range]
  exact Subtype.ext ((List.takeD_eq_take _ hroom).trans hblock)

/-- A string of whole blocks is one that was put together. -/
theorem exists_join (k : Nat) {d : List β} (hd : d.length = k * n) :
    ∃ bs : List (Block β n), join bs = d := by
  induction k generalizing d with
  | zero =>
      refine ⟨[], ?_⟩
      rw [Nat.zero_mul] at hd
      rw [List.eq_nil_of_length_eq_zero hd]
      rfl
  | succ k ih =>
      rw [Nat.succ_mul] at hd
      have hfront : (d.take n).length = n := by
        rw [List.length_take]
        omega
      have hrest : (d.drop n).length = k * n := by
        rw [List.length_drop]
        omega
      obtain ⟨bs, hbs⟩ := ih hrest
      refine ⟨⟨d.take n, hfront⟩ :: bs, ?_⟩
      calc join (⟨d.take n, hfront⟩ :: bs) = d.take n ++ join bs := rfl
        _ = d := by rw [hbs, List.take_append_drop]

/-- Whole blocks that were cut are put together again. -/
theorem join_cut [Inhabited β] (hn : 0 < n) {d : List β} (hd : d.length % n = 0) :
    join (cut n d) = d := by
  obtain ⟨bs, rfl⟩ := exists_join (n := n) (d.length / n) (by
    rw [Nat.div_mul_cancel (Nat.dvd_of_mod_eq_zero hd)])
  rw [cut_join hn]

end Strings

end Cbc
