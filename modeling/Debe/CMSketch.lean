import Debe.Lib.CountMin
import Debe.Structures

/-!
# The count-min sketch

`EcallCMSketch` keeps `depth_` rows of `width_` 32-bit counters.  Row `i` counts
a hash at the position given by the hash's `i`-th 32-bit word, so no further
hash functions are involved.  Counters wrap.
-/

namespace Debe

open LittleEndian

/-- `EcallCMSketch`. -/
structure CMSketch where
  width : Nat
  depth : Nat
  total : Nat
  counterArray : Nat → Nat → Nat

namespace CMSketch

/-- The all-zero sketch. -/
def init (width depth : Nat) : CMSketch where
  width := width
  depth := depth
  total := 0
  counterArray := fun _ _ => 0

/-- `chunkHashPtr[i] % width_`. -/
def pos (s : CMSketch) (chunkHash : Bytes) (i : Nat) : Nat :=
  decode ((chunkHash.drop (4 * i)).take 4) % s.width

/-- `Update`: one counter of each row grows by `count`. -/
def update (s : CMSketch) (chunkHash : Bytes) (count : Nat) : CMSketch :=
  { s with
    total := s.total + count
    counterArray := fun i j =>
      if i < s.depth ∧ j = s.pos chunkHash i then (s.counterArray i j + count) % 2 ^ 32
      else s.counterArray i j }

/-- `Estimate`: the least of the counters of a hash, from `UINT32_MAX` down. -/
def estimate (s : CMSketch) (chunkHash : Bytes) : Nat :=
  (List.range s.depth).foldl (fun minVal i => min minVal (s.counterArray i (s.pos chunkHash i)))
    (2 ^ 32 - 1)

/-! ## Any row positions

`CountMinSketch` of the simulator counts in the same way but takes the position in a
row from a hash function of its own.  Below the positions are a parameter. -/

/-- `Update` with the positions `rowPos`. -/
def updateAt (rowPos : Bytes → Nat → Nat) (s : CMSketch) (chunkHash : Bytes) (count : Nat) :
    CMSketch :=
  { s with
    total := s.total + count
    counterArray := fun i j =>
      if i < s.depth ∧ j = rowPos chunkHash i then (s.counterArray i j + count) % 2 ^ 32
      else s.counterArray i j }

/-- `Estimate` with the positions `rowPos`. -/
def estimateAt (rowPos : Bytes → Nat → Nat) (s : CMSketch) (chunkHash : Bytes) : Nat :=
  (List.range s.depth).foldl (fun minVal i => min minVal (s.counterArray i (rowPos chunkHash i)))
    (2 ^ 32 - 1)

@[simp] theorem updateAt_depth (rowPos : Bytes → Nat → Nat) (s : CMSketch) (chunkHash : Bytes)
    (count : Nat) : (s.updateAt rowPos chunkHash count).depth = s.depth := rfl

theorem update_eq_updateAt (s : CMSketch) (chunkHash : Bytes) (count : Nat) :
    s.update chunkHash count = s.updateAt s.pos chunkHash count := rfl

theorem estimate_eq_estimateAt (s : CMSketch) (chunkHash : Bytes) :
    s.estimate chunkHash = s.estimateAt s.pos chunkHash := rfl

/-- The positions depend on the width only, which no update changes. -/
theorem update_pos (s : CMSketch) (chunkHash : Bytes) (count : Nat) :
    (s.update chunkHash count).pos = s.pos := rfl

/-! ### What the counters count -/

/-- The counters hold how many of the hashes `seen` fall on each position. -/
def Counts (rowPos : Bytes → Nat → Nat) (seen : List Bytes) (s : CMSketch) : Prop :=
  ∀ i j, i < s.depth → s.counterArray i j = seen.countP fun h => rowPos h i = j

/-- No counter of the first `depth` rows is counted past 32 bits. -/
def Unwrapped (rowPos : Bytes → Nat → Nat) (depth : Nat) (seen : List Bytes) : Prop :=
  ∀ i j, i < depth → (seen.countP fun h => rowPos h i = j) < 2 ^ 32

variable {rowPos : Bytes → Nat → Nat} {depth : Nat} {seen more : List Bytes} {s : CMSketch}

theorem counts_init (rowPos : Bytes → Nat → Nat) (width depth : Nat) :
    Counts rowPos [] (init width depth) := by
  intro i j _
  rfl

theorem Unwrapped.left (h : Unwrapped rowPos depth (seen ++ more)) :
    Unwrapped rowPos depth seen := by
  intro i j hi
  have hlt := h i j hi
  rw [List.countP_append] at hlt
  omega

/-- Counting one more hash. -/
theorem Counts.updateAt (h : Counts rowPos seen s) {fp : Bytes}
    (hwrap : Unwrapped rowPos s.depth (seen ++ [fp])) :
    Counts rowPos (seen ++ [fp]) (s.updateAt rowPos fp 1) := by
  intro i j hi
  have hrow : i < s.depth := hi
  have hlt := hwrap i j hrow
  have hold := h i j hrow
  rw [List.countP_append, List.countP_singleton] at hlt ⊢
  by_cases hj : rowPos fp i = j
  · have hnew : (s.updateAt rowPos fp 1).counterArray i j =
        (s.counterArray i j + 1) % 2 ^ 32 := if_pos ⟨hrow, hj.symm⟩
    simp only [hj, decide_true, if_true] at hlt ⊢
    rw [hnew, hold, Nat.mod_eq_of_lt hlt]
  · have hsame : (s.updateAt rowPos fp 1).counterArray i j = s.counterArray i j :=
      if_neg fun hboth => hj hboth.2.symm
    simp only [hj, decide_false, Bool.false_eq_true, if_false, Nat.add_zero]
    rw [hsame, hold]

/-- **Estimates only grow**, as long as no counter wraps. -/
theorem Counts.estimateAt_mono {s' : CMSketch} (h : Counts rowPos seen s)
    (h' : Counts rowPos (seen ++ more) s') (hdepth : s'.depth = s.depth) (fp : Bytes) :
    s.estimateAt rowPos fp ≤ s'.estimateAt rowPos fp := by
  rw [estimateAt, estimateAt, hdepth]
  refine CountMin.least_mono fun i hi => ?_
  have hrow : i < s.depth := List.mem_range.mp hi
  rw [h i _ hrow, h' i _ (hdepth.symm ▸ hrow), List.countP_append]
  exact Nat.le_add_right _ _

end CMSketch

end Debe
