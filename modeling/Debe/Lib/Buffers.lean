import Mathlib.Data.List.Basic
import Mathlib.Tactic.Common

/-!
# Buffers of a fixed size

A buffer is a list whose length is its size.  `write` and `read` are a `memcpy`
into it and out of it at an offset, and have no result when they would leave it.
A loop that copies one thing behind the other keeps `Filled`: the front of the
buffer is what was copied so far.
-/

namespace Buffer

variable {α : Type*} {size offset : Nat} {buf done data : List α}

/-- The buffer with `data` at the offset. -/
def overwrite (buf : List α) (offset : Nat) (data : List α) : List α :=
  buf.take offset ++ data ++ buf.drop (offset + data.length)

/-- Copy `data` to the offset. -/
def write (buf : List α) (offset : Nat) (data : List α) : Option (List α) :=
  if offset + data.length ≤ buf.length then some (overwrite buf offset data) else none

/-- Copy `n` elements from the offset. -/
def read (buf : List α) (offset n : Nat) : Option (List α) :=
  if offset + n ≤ buf.length then some ((buf.drop offset).take n) else none

@[simp] theorem overwrite_nil (buf : List α) (offset : Nat) : overwrite buf offset [] = buf := by
  simp [overwrite]

/-- All of a buffer is written over. -/
theorem overwrite_whole (hfit : buf.length ≤ data.length) : overwrite buf 0 data = data := by
  rw [overwrite, List.take_zero, List.nil_append, Nat.zero_add, List.drop_of_length_le hfit,
    List.append_nil]

theorem length_overwrite (hfit : offset + data.length ≤ buf.length) :
    (overwrite buf offset data).length = buf.length := by
  simp only [overwrite, List.length_append, List.length_take, List.length_drop]
  omega

/-- Two copies, one behind the other, are one. -/
theorem overwrite_overwrite (hfit : offset ≤ buf.length) (a b : List α) :
    overwrite (overwrite buf offset a) (offset + a.length) b = overwrite buf offset (a ++ b) := by
  have hfront : (buf.take offset ++ a).length = offset + a.length := by
    rw [List.length_append, List.length_take, Nat.min_eq_left hfit]
  have htake : (overwrite buf offset a).take (offset + a.length) = buf.take offset ++ a := by
    rw [overwrite, ← hfront, List.take_left]
  have hdrop : (overwrite buf offset a).drop (offset + a.length + b.length) =
      buf.drop (offset + (a ++ b).length) := by
    have hlen : offset + (a ++ b).length = offset + a.length + b.length := by
      rw [List.length_append, Nat.add_assoc]
    rw [hlen, overwrite, ← hfront, List.drop_length_add_append, List.drop_drop]
  rw [overwrite, htake, hdrop, overwrite, List.append_assoc (buf.take offset)]

/-- A buffer of the given size that begins with `done`. -/
structure Filled (size : Nat) (done buf : List α) : Prop where
  length : buf.length = size
  begins : done <+: buf

theorem Filled.take (h : Filled size done buf) : buf.take done.length = done :=
  (List.prefix_iff_eq_take.mp h.begins).symm

/-- A full buffer is what was copied. -/
theorem Filled.eq (h : Filled size done buf) (hfull : done.length = size) : buf = done :=
  (h.begins.eq_of_length (hfull.trans h.length.symm)).symm

/-- **The next copy** goes behind the last one. -/
theorem Filled.write (h : Filled size done buf) (data : List α)
    (hfit : done.length + data.length ≤ size) :
    ∃ buf', Buffer.write buf done.length data = some buf' ∧
      Filled size (done ++ data) buf' := by
  have hroom : done.length + data.length ≤ buf.length := by
    rw [h.length]
    exact hfit
  refine ⟨overwrite buf done.length data, if_pos hroom, ?_, ?_⟩
  · rw [length_overwrite hroom, h.length]
  · rw [overwrite, h.take]
    exact List.prefix_append _ _

/-- A copy that was made went behind the last one. -/
theorem prefix_of_write {buf' : List α} (h : done <+: buf)
    (hwrite : Buffer.write buf done.length data = some buf') : done ++ data <+: buf' := by
  by_cases hfit : done.length + data.length ≤ buf.length
  · obtain ⟨buf₁, hrun, hfilled⟩ := Filled.write ⟨rfl, h⟩ data hfit
    obtain rfl := Option.some.inj (hrun.symm.trans hwrite)
    exact hfilled.begins
  · rw [Buffer.write, if_neg hfit] at hwrite
    cases hwrite

/-- The front of a buffer may be written over. -/
theorem Filled.restart (h : Filled size done buf) : Filled size [] buf :=
  ⟨h.length, List.nil_prefix⟩

/-- Writing over what stands between two parts of a buffer. -/
theorem write_mid (a c : List α) {b d : List α} (hlen : d.length = b.length) :
    write (a ++ (b ++ c)) a.length d = some (a ++ (d ++ c)) := by
  have hfit : a.length + d.length ≤ (a ++ (b ++ c)).length := by
    simp only [List.length_append]
    omega
  rw [write, if_pos hfit, overwrite, List.take_left, List.drop_length_add_append, hlen,
    List.drop_left, List.append_assoc]

/-- Reading what stands between two parts of a buffer. -/
theorem read_mid (a b c : List α) : read (a ++ (b ++ c)) a.length b.length = some b := by
  rw [read, if_pos (by simp only [List.length_append]; omega), List.drop_left, List.take_left]

/-- What lies in front of the offset stays. -/
theorem take_drop_overwrite_of_le {a n : Nat} (hle : a + n ≤ offset) (hfit : offset ≤ buf.length) :
    ((overwrite buf offset data).drop a).take n = (buf.drop a).take n := by
  have hfront : (buf.take offset).length = offset := List.length_take_of_le hfit
  rw [overwrite, List.append_assoc, List.drop_append_of_le_length (by omega),
    List.take_append_of_le_length (by rw [List.length_drop]; omega), List.drop_take, List.take_take,
    Nat.min_eq_left (by omega)]

/-- At the offset there is what was written. -/
theorem take_drop_overwrite_self (hfit : offset ≤ buf.length) :
    ((overwrite buf offset data).drop offset).take data.length = data := by
  have hfront : (buf.take offset).length = offset := List.length_take_of_le hfit
  rw [overwrite, List.append_assoc, List.drop_left' hfront, List.take_left]

end Buffer
