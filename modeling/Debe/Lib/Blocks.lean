import Mathlib.Data.List.Basic
import Mathlib.Tactic.Common

/-!
# Tables of blocks

A table laid out in memory is the images of its rows one behind the other, all of one
size.  So a number of whole blocks is cut off by counting rows, and any row is found at
its multiple of the size.
-/

namespace Blocks

variable {α β : Type*} {f : α → List β} {n : Nat} {l : List α}

theorem length_flatMap (h : ∀ x ∈ l, (f x).length = n) :
    (l.flatMap f).length = l.length * n := by
  induction l with
  | nil => simp
  | cons x l ih =>
      rw [List.flatMap_cons, List.length_append, h x List.mem_cons_self,
        ih fun y hy => h y (List.mem_cons_of_mem _ hy), List.length_cons, Nat.succ_mul,
        Nat.add_comm]

/-- Dropping whole blocks. -/
theorem drop_flatMap (h : ∀ x ∈ l, (f x).length = n) (i : Nat) :
    (l.flatMap f).drop (i * n) = (l.drop i).flatMap f := by
  induction l generalizing i with
  | nil => simp
  | cons x l ih =>
      cases i with
      | zero => simp
      | succ i =>
          have hx := h x List.mem_cons_self
          have hsize : (i + 1) * n = (f x).length + i * n := by
            rw [hx, Nat.succ_mul, Nat.add_comm]
          rw [List.flatMap_cons, hsize, List.drop_length_add_append,
            ih (fun y hy => h y (List.mem_cons_of_mem _ hy)), List.drop_succ_cons]

/-- Taking whole blocks, or all there are. -/
theorem take_flatMap (h : ∀ x ∈ l, (f x).length = n) (i : Nat) :
    (l.flatMap f).take (i * n) = (l.take i).flatMap f := by
  induction l generalizing i with
  | nil => simp
  | cons x l ih =>
      cases i with
      | zero => simp
      | succ i =>
          have hx := h x List.mem_cons_self
          have hsize : (i + 1) * n = (f x).length + i * n := by
            rw [hx, Nat.succ_mul, Nat.add_comm]
          rw [List.flatMap_cons, hsize, List.take_length_add_append,
            ih (fun y hy => h y (List.mem_cons_of_mem _ hy)), List.take_succ_cons,
            List.flatMap_cons]

/-- **Any row** is found at its multiple of the size. -/
theorem block (h : ∀ x ∈ l, (f x).length = n) {i : Nat} {x : α} (hx : l[i]? = some x) :
    ((l.flatMap f).drop (i * n)).take n = f x := by
  obtain ⟨hi, rfl⟩ := List.getElem?_eq_some_iff.mp hx
  rw [drop_flatMap h, List.drop_eq_getElem_cons hi, List.flatMap_cons,
    List.take_left' (h _ (List.getElem_mem hi))]

/-- Any row of a table is inside. -/
theorem block_le (h : ∀ x ∈ l, (f x).length = n) {i : Nat} {x : α} (hx : l[i]? = some x) :
    i * n + n ≤ (l.flatMap f).length := by
  obtain ⟨hi, -⟩ := List.getElem?_eq_some_iff.mp hx
  rw [length_flatMap h, ← Nat.succ_mul]
  exact Nat.mul_le_mul_right _ hi

/-- Any row is found in a buffer that begins with the table. -/
theorem block_of_prefix {buf : List β} (hbuf : l.flatMap f <+: buf)
    (h : ∀ x ∈ l, (f x).length = n) {i : Nat} {x : α} (hx : l[i]? = some x) :
    (buf.drop (i * n)).take n = f x := by
  obtain ⟨behind, rfl⟩ := hbuf
  have hle := block_le h hx
  rw [List.drop_append_of_le_length (Nat.le_of_add_right_le hle),
    List.take_append_of_le_length (by rw [List.length_drop]; omega), block h hx]

/-- Rows that can be told from their images can be told from the table. -/
theorem flatMap_inj (hn : 0 < n) (hsize : ∀ x, (f x).length = n)
    (hf : ∀ x y, f x = f y → x = y) {l' : List α} (h : l.flatMap f = l'.flatMap f) : l = l' := by
  induction l generalizing l' with
  | nil =>
      cases l' with
      | nil => rfl
      | cons y l' =>
          have hlen := congrArg List.length h
          simp only [List.flatMap_nil, List.length_nil, List.flatMap_cons, List.length_append,
            hsize] at hlen
          omega
  | cons x l ih =>
      cases l' with
      | nil =>
          have hlen := congrArg List.length h
          simp only [List.flatMap_nil, List.length_nil, List.flatMap_cons, List.length_append,
            hsize] at hlen
          omega
      | cons y l' =>
          rw [List.flatMap_cons, List.flatMap_cons] at h
          obtain ⟨hx, hl⟩ := List.append_inj h (by rw [hsize, hsize])
          rw [hf x y hx, ih hl]

/-- A number of whole blocks can be cut into them. -/
theorem exists_blocks (m n : Nat) {l : List β} (h : l.length = m * n) :
    ∃ blocks : List (List β), blocks.length = m ∧ (∀ b ∈ blocks, b.length = n) ∧
      blocks.flatten = l := by
  induction m generalizing l with
  | zero =>
      rw [Nat.zero_mul, List.length_eq_zero_iff] at h
      exact ⟨[], rfl, by simp, h.symm⟩
  | succ m ih =>
      rw [Nat.succ_mul] at h
      obtain ⟨blocks, hlen, hsizes, hflat⟩ := ih (l := l.drop n) (by rw [List.length_drop]; omega)
      refine ⟨l.take n :: blocks, by rw [List.length_cons, hlen], ?_, ?_⟩
      · rw [List.forall_mem_cons]
        exact ⟨List.length_take_of_le (by omega), hsizes⟩
      · rw [List.flatten_cons, hflat, List.take_append_drop]

end Blocks
