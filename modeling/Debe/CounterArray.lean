import Debe.FreqIndex
import Debe.Lib.Buffers
import Debe.Lib.CountMin
import Mathlib.Data.List.Induction

/-!
# The counter array of the sketch

`EcallCMSketch` as it stands in memory: rows of 32-bit counters, indexed by the words of the
hash.  Reading past the hash, a row or a counter is a fault, and so is the remainder by a
width of zero.  The sketch of `CMSketch` is what these arrays stand for.

As long as the counts of all updates add up to less than 2³², no counter wraps and the sketch
is a count-min sketch in the sense of `CountMin`.
-/

namespace Debe

open LittleEndian

/-- The members of `EcallCMSketch`. -/
structure EcallCMSketch where
  width : UInt32
  depth : UInt32
  total : UInt64
  counterArray : List (List UInt32)

/-- A call of `Update`. -/
structure UpdateCall where
  chunkHash : Bytes
  chunkHashLen : UInt64
  count : UInt32

namespace EcallCMSketch

/-- The constructor. -/
def init (width depth : UInt32) : EcallCMSketch where
  width := width
  depth := depth
  total := 0
  counterArray := List.replicate depth.toNat (List.replicate width.toNat 0)

/-- `chunkHashPtr[i] % width_`. -/
def position (s : EcallCMSketch) (chunkHash : Bytes) (i : Nat) : Except Fault UInt32 := do
  let word ← inRange (Buffer.read chunkHash (4 * i) 4)
  if s.width = 0 then .error .outOfRange
  return UInt32.ofNat (decode word) % s.width

/-- `counterArray_[i][pos] += count`. -/
def addTo (s : EcallCMSketch) (i pos : Nat) (count : UInt32) : Except Fault EcallCMSketch := do
  let row ← inRange s.counterArray[i]?
  let counter ← inRange row[pos]?
  return { s with counterArray := s.counterArray.set i (row.set pos (counter + count)) }

/-- The body of the loop of `Update`. -/
def updateRow (chunkHash : Bytes) (count : UInt32) (s : EcallCMSketch) (i : Nat) :
    Except Fault EcallCMSketch := do
  let pos ← s.position chunkHash i
  s.addTo i pos.toNat count

/-- `Update`. -/
def update (s : EcallCMSketch) (chunkHash : Bytes) (_chunkHashLen : UInt64) (count : UInt32) :
    Except Fault EcallCMSketch :=
  (List.range s.depth.toNat).foldlM (updateRow chunkHash count)
    { s with total := s.total + count.toUInt64 }

/-- The body of the loop of `Estimate`. -/
def estimateRow (s : EcallCMSketch) (chunkHash : Bytes) (minVal : UInt32) (i : Nat) :
    Except Fault UInt32 := do
  let pos ← s.position chunkHash i
  let row ← inRange s.counterArray[i]?
  let counter ← inRange row[pos.toNat]?
  return min minVal counter

/-- `Estimate`. -/
def estimate (s : EcallCMSketch) (chunkHash : Bytes) (_chunkHashLen : UInt64) :
    Except Fault UInt32 :=
  (List.range s.depth.toNat).foldlM (s.estimateRow chunkHash) 0xffffffff

/-- A call of `Update` on the sketch. -/
def call (s : EcallCMSketch) (u : UpdateCall) : Except Fault EcallCMSketch :=
  s.update u.chunkHash u.chunkHashLen u.count

/-- A new sketch after a sequence of updates. -/
def run (width depth : UInt32) (updates : List UpdateCall) : Except Fault EcallCMSketch :=
  updates.foldlM call (init width depth)

/-- The counter `[i][p]`. -/
def counter (s : EcallCMSketch) (i p : Nat) : Option UInt32 :=
  s.counterArray[i]?.bind fun row => row[p]?

end EcallCMSketch

/-! ## The sketch that the arrays stand for -/

/-- The arrays hold the counters of a sketch. -/
structure HoldsSketch (s : EcallCMSketch) (t : CMSketch) : Prop where
  width : s.width.toNat = t.width
  depth : s.depth.toNat = t.depth
  total : s.total.toNat = t.total % 2 ^ 64
  counters : ∀ i p, i < t.depth → p < t.width →
    (s.counter i p).map UInt32.toNat = some (t.counterArray i p)

/-- A sketch after the first `n` rows are updated. -/
def CMSketch.updateRows (t : CMSketch) (chunkHash : Bytes) (count n : Nat) : CMSketch :=
  { t with
    total := t.total + count
    counterArray := fun i j =>
      if i < n ∧ j = t.pos chunkHash i then (t.counterArray i j + count) % 2 ^ 32
      else t.counterArray i j }

theorem CMSketch.update_eq_updateRows (t : CMSketch) (chunkHash : Bytes) (count : Nat) :
    t.update chunkHash count = t.updateRows chunkHash count t.depth := rfl

/-- One more row: its counter of the hash grows. -/
theorem CMSketch.updateRows_succ (t : CMSketch) (chunkHash : Bytes) (count n i p : Nat) :
    (t.updateRows chunkHash count (n + 1)).counterArray i p =
      if i = n ∧ p = t.pos chunkHash n then
        ((t.updateRows chunkHash count n).counterArray i p + count) % 2 ^ 32
      else (t.updateRows chunkHash count n).counterArray i p := by
  simp only [updateRows]
  rcases Nat.lt_trichotomy i n with hi | rfl | hi
  · simp only [Nat.lt_succ_of_lt hi, hi, hi.ne, true_and, false_and, if_false]
  · simp only [Nat.lt_succ_self, Nat.lt_irrefl, true_and, false_and, if_false]
  · have hi' : ¬i < n + 1 := Nat.not_lt.mpr hi
    simp only [hi', Nat.not_lt.mpr hi.le, hi.ne', false_and, if_false]

theorem CMSketch.pos_lt {t : CMSketch} (hwidth : 0 < t.width) (chunkHash : Bytes) (i : Nat) :
    t.pos chunkHash i < t.width := Nat.mod_lt _ hwidth

theorem toNat_min (a b : UInt32) : (min a b).toNat = min a.toNat b.toNat := by
  have hmin : min a b = if a ≤ b then a else b := rfl
  rw [hmin, Nat.min_def]
  simp only [UInt32.le_iff_toNat_le]
  split <;> rfl

variable {s : EcallCMSketch} {t : CMSketch} {chunkHash : Bytes} {count : UInt32} {i : Nat}

theorem HoldsSketch.counter_eq (h : HoldsSketch s t) {p : Nat} (hi : i < t.depth)
    (hp : p < t.width) : ∃ row c, s.counterArray[i]? = some row ∧ row[p]? = some c ∧
      c.toNat = t.counterArray i p := by
  obtain ⟨c, hc, hvalue⟩ := Option.map_eq_some_iff.mp (h.counters i p hi hp)
  obtain ⟨row, hrow, hcell⟩ := Option.bind_eq_some_iff.mp hc
  exact ⟨row, c, hrow, hcell, hvalue⟩

/-- A word of the hash decides the position. -/
theorem HoldsSketch.position (h : HoldsSketch s t) (hwidth : 0 < t.width)
    (hword : 4 * i + 4 ≤ chunkHash.length) :
    ∃ pos, s.position chunkHash i = .ok pos ∧ pos.toNat = t.pos chunkHash i := by
  have hread : inRange (Buffer.read chunkHash (4 * i) 4) =
      .ok ((chunkHash.drop (4 * i)).take 4) := by
    rw [Buffer.read, if_pos hword, inRange]
  have hne : s.width ≠ 0 := fun hzero => by
    have hnat := h.width
    rw [hzero, UInt32.toNat_zero] at hnat
    omega
  have hlt : decode ((chunkHash.drop (4 * i)).take 4) < 2 ^ 32 := by
    have hbytes := decode_lt ((chunkHash.drop (4 * i)).take 4)
    rwa [List.length_take, List.length_drop, Nat.min_eq_left (by omega)] at hbytes
  refine ⟨UInt32.ofNat (decode ((chunkHash.drop (4 * i)).take 4)) % s.width, ?_, ?_⟩
  · rw [EcallCMSketch.position, hread]
    dsimp only [bind, Except.bind]
    rw [if_neg hne]
    rfl
  · rw [UInt32.toNat_mod, UInt32.toNat_ofNat', h.width, Nat.mod_eq_of_lt hlt, CMSketch.pos]

/-- The counters after one of them is counted up. -/
theorem counter_set {row : List UInt32} {pos : Nat} {c : UInt32}
    (hrow : s.counterArray[i]? = some row) (hpos : pos < row.length) (j p : Nat) :
    { s with counterArray := s.counterArray.set i (row.set pos c) }.counter j p =
      if j = i ∧ p = pos then some c else s.counter j p := by
  obtain ⟨hi, -⟩ := List.getElem?_eq_some_iff.mp hrow
  rw [EcallCMSketch.counter, EcallCMSketch.counter]
  rcases eq_or_ne j i with rfl | hj
  · rw [List.getElem?_set_self hi, hrow, Option.bind_some, Option.bind_some]
    rcases eq_or_ne p pos with rfl | hp
    · rw [if_pos ⟨rfl, rfl⟩, List.getElem?_set_self hpos]
    · rw [if_neg fun hboth => hp hboth.2, List.getElem?_set_ne hp.symm]
  · rw [if_neg fun hboth => hj hboth.1, List.getElem?_set_ne hj.symm]

/-- **One row** of an update. -/
theorem HoldsSketch.updateRow (hwidth : 0 < t.width) (hword : 4 * i + 4 ≤ chunkHash.length)
    (hi : i < t.depth) (h : HoldsSketch s (t.updateRows chunkHash count.toNat i)) :
    ∃ s', EcallCMSketch.updateRow chunkHash count s i = .ok s' ∧
      HoldsSketch s' (t.updateRows chunkHash count.toNat (i + 1)) := by
  obtain ⟨pos, hpos, hvalue⟩ := h.position hwidth hword
  have hvalue' : pos.toNat = t.pos chunkHash i := hvalue
  obtain ⟨row, c, hrow, hcell, hc⟩ :=
    h.counter_eq (p := pos.toNat) hi (hvalue' ▸ CMSketch.pos_lt hwidth chunkHash i)
  obtain ⟨hlt, -⟩ := List.getElem?_eq_some_iff.mp hcell
  refine ⟨{ s with counterArray := s.counterArray.set i (row.set pos.toNat (c + count)) }, ?_,
    ⟨h.width, h.depth, h.total, ?_⟩⟩
  · rw [EcallCMSketch.updateRow, hpos]
    dsimp only [bind, Except.bind]
    rw [EcallCMSketch.addTo, inRange_eq_ok.mpr hrow]
    dsimp only [bind, Except.bind]
    rw [inRange_eq_ok.mpr hcell]
    rfl
  · intro j p hj hp
    rw [counter_set hrow hlt, CMSketch.updateRows_succ, hvalue']
    by_cases hhit : j = i ∧ p = t.pos chunkHash i
    · obtain ⟨rfl, rfl⟩ := hhit
      rw [if_pos ⟨rfl, rfl⟩, if_pos ⟨rfl, rfl⟩, Option.map_some, UInt32.toNat_add, hc, hvalue']
    · rw [if_neg hhit, if_neg hhit]
      exact h.counters j p hj hp

theorem HoldsSketch.addTotal (h : HoldsSketch s t) (chunkHash : Bytes) (count : UInt32) :
    HoldsSketch { s with total := s.total + count.toUInt64 }
      (t.updateRows chunkHash count.toNat 0) where
  width := h.width
  depth := h.depth
  total := by
    rw [UInt64.toNat_add, UInt32.toNat_toUInt64, h.total, Nat.mod_add_mod]
    rfl
  counters i p hi hp := by
    simp only [CMSketch.updateRows, Nat.not_lt_zero, false_and, if_false]
    exact h.counters i p hi hp

/-- **`Update` in memory** is `update` of the sketch. -/
theorem HoldsSketch.update (h : HoldsSketch s t) (hwidth : 0 < t.width)
    (hwords : 4 * t.depth ≤ chunkHash.length) (len : UInt64) (count : UInt32) :
    ∃ s', s.update chunkHash len count = .ok s' ∧
      HoldsSketch s' (t.update chunkHash count.toNat) := by
  rw [EcallCMSketch.update, h.depth, CMSketch.update_eq_updateRows]
  refine Loops.foldlM_range (P := fun i s => HoldsSketch s (t.updateRows chunkHash count.toNat i))
    (h.addTotal chunkHash count) ?_
  intro i s hi hs
  exact hs.updateRow hwidth (by omega) hi

/-- **`Estimate` in memory** is `estimate` of the sketch. -/
theorem HoldsSketch.estimate (h : HoldsSketch s t) (hwidth : 0 < t.width)
    (hwords : 4 * t.depth ≤ chunkHash.length) (len : UInt64) :
    ∃ e, s.estimate chunkHash len = .ok e ∧ e.toNat = t.estimate chunkHash := by
  rw [EcallCMSketch.estimate, h.depth, CMSketch.estimate]
  refine Loops.foldlM_simulates (R := fun (e : UInt32) (minVal : Nat) => e.toNat = minVal) rfl ?_
  intro e minVal i hi he
  have hi : i < t.depth := List.mem_range.mp hi
  have hword : 4 * i + 4 ≤ chunkHash.length := by omega
  obtain ⟨pos, hpos, hvalue⟩ := h.position hwidth hword
  obtain ⟨row, c, hrow, hcell, hc⟩ :=
    h.counter_eq (p := pos.toNat) hi (hvalue ▸ CMSketch.pos_lt hwidth chunkHash i)
  refine ⟨min e c, ?_, ?_⟩
  · rw [EcallCMSketch.estimateRow, hpos]
    dsimp only [bind, Except.bind]
    rw [inRange_eq_ok.mpr hrow]
    dsimp only
    rw [inRange_eq_ok.mpr hcell]
    rfl
  · rw [toNat_min, he, hc, hvalue]

/-! ## What the counters count -/

/-- The count of a call. -/
def UpdateCall.weight (u : UpdateCall) : Nat := u.count.toNat

/-- The hash of a call reaches every row. -/
def UpdateCall.HasWords (depth : UInt32) (u : UpdateCall) : Prop :=
  4 * depth.toNat ≤ u.chunkHash.length

instance (depth : UInt32) (u : UpdateCall) : Decidable (u.HasWords depth) :=
  inferInstanceAs (Decidable (_ ≤ _))

/-- The position that word `i` of a hash gives. -/
def wordPos (width i : Nat) (chunkHash : Bytes) : Nat :=
  decode ((chunkHash.drop (4 * i)).take 4) % width

/-- The counts of the calls whose hash falls on the counter `[i][p]`. -/
def cellCount (width : Nat) (updates : List UpdateCall) (i p : Nat) : Nat :=
  CountMin.cell UpdateCall.weight UpdateCall.chunkHash (wordPos width) i p updates

/-- The counts of the calls for a hash. -/
def trueCount (updates : List UpdateCall) (chunkHash : Bytes) : Nat :=
  CountMin.count UpdateCall.weight UpdateCall.chunkHash chunkHash updates

/-- The counts of all calls. -/
def totalCount (updates : List UpdateCall) : Nat :=
  (updates.map UpdateCall.weight).sum

namespace CMSketch

/-- `update` for a call. -/
def receive (t : CMSketch) (u : UpdateCall) : CMSketch :=
  t.update u.chunkHash u.weight

/-- The sketch that a sequence of calls leaves. -/
def afterCalls (width depth : Nat) (updates : List UpdateCall) : CMSketch :=
  updates.foldl receive (init width depth)

variable {width depth i : Nat}

theorem afterCalls_append_singleton (updates : List UpdateCall) (u : UpdateCall) :
    afterCalls width depth (updates ++ [u]) = (afterCalls width depth updates).receive u :=
  List.foldl_append

theorem afterCalls_dimensions (updates : List UpdateCall) :
    (afterCalls width depth updates).width = width ∧
      (afterCalls width depth updates).depth = depth := by
  induction updates using List.reverseRecOn with
  | nil => exact ⟨rfl, rfl⟩
  | append_singleton updates u ih =>
      rw [afterCalls_append_singleton]
      exact ih

theorem afterCalls_width (updates : List UpdateCall) :
    (afterCalls width depth updates).width = width := (afterCalls_dimensions updates).1

theorem afterCalls_depth (updates : List UpdateCall) :
    (afterCalls width depth updates).depth = depth := (afterCalls_dimensions updates).2

theorem afterCalls_pos (updates : List UpdateCall) (chunkHash : Bytes) (i : Nat) :
    (afterCalls width depth updates).pos chunkHash i = wordPos width i chunkHash := by
  rw [pos, afterCalls_width, wordPos]

/-- **The counters** hold the counts of their calls, in 32 bits. -/
theorem afterCalls_counter (updates : List UpdateCall) (hi : i < depth) (p : Nat) :
    (afterCalls width depth updates).counterArray i p = cellCount width updates i p % 2 ^ 32 := by
  induction updates using List.reverseRecOn with
  | nil => rfl
  | append_singleton updates u ih =>
      have hstep : (afterCalls width depth (updates ++ [u])).counterArray i p =
          if p = wordPos width i u.chunkHash then
            ((afterCalls width depth updates).counterArray i p + u.weight) % 2 ^ 32
          else (afterCalls width depth updates).counterArray i p := by
        rw [afterCalls_append_singleton, receive, update]
        simp only [afterCalls_depth, afterCalls_pos, hi, true_and]
      rw [hstep, ih, cellCount, cellCount, CountMin.cell, CountMin.cell, CountMin.tally_append,
        CountMin.tally_singleton]
      rcases eq_or_ne p (wordPos width i u.chunkHash) with rfl | hp
      · rw [if_pos rfl, if_pos rfl, Nat.mod_add_mod]
      · rw [if_neg hp, if_neg hp.symm, Nat.add_zero]

theorem afterCalls_counter_of_lt {updates : List UpdateCall} (htotal : totalCount updates < 2 ^ 32)
    (hi : i < depth) (p : Nat) :
    (afterCalls width depth updates).counterArray i p = cellCount width updates i p := by
  have hle : cellCount width updates i p ≤ totalCount updates :=
    CountMin.tally_le_total UpdateCall.weight _ updates
  rw [afterCalls_counter updates hi, Nat.mod_eq_of_lt (hle.trans_lt htotal)]

/-- **The estimates** are those of a count-min sketch. -/
theorem afterCalls_estimate {updates : List UpdateCall} (htotal : totalCount updates < 2 ^ 32)
    (chunkHash : Bytes) :
    (afterCalls width depth updates).estimate chunkHash =
      CountMin.estimate UpdateCall.weight UpdateCall.chunkHash (wordPos width) (2 ^ 32 - 1)
        (List.range depth) chunkHash updates := by
  rw [estimate, afterCalls_depth]
  refine CountMin.least_congr fun i hi => ?_
  rw [afterCalls_pos, afterCalls_counter_of_lt htotal (List.mem_range.mp hi)]
  rfl

end CMSketch

/-! ## The arrays after a sequence of calls -/

variable {width depth : UInt32} {updates : List UpdateCall}

theorem holdsSketch_init (width depth : UInt32) :
    HoldsSketch (.init width depth) (.init width.toNat depth.toNat) where
  width := rfl
  depth := rfl
  total := rfl
  counters i p hi hp := by
    have hrow : (EcallCMSketch.init width depth).counterArray[i]? =
        some (List.replicate width.toNat 0) := List.getElem?_replicate_of_lt hi
    have hcell : (List.replicate width.toNat (0 : UInt32))[p]? = some 0 :=
      List.getElem?_replicate_of_lt hp
    rw [EcallCMSketch.counter, hrow, Option.bind_some, hcell]
    rfl

/-- One more call. -/
theorem HoldsSketch.call {s : EcallCMSketch} {u : UpdateCall}
    (h : HoldsSketch s (CMSketch.afterCalls width.toNat depth.toNat updates)) (hwidth : 1 ≤ width)
    (hwords : u.HasWords depth) :
    ∃ s', s.call u = .ok s' ∧
      HoldsSketch s' (CMSketch.afterCalls width.toNat depth.toNat (updates ++ [u])) := by
  rw [CMSketch.afterCalls_append_singleton]
  refine h.update ?_ ?_ u.chunkHashLen u.count
  · rw [CMSketch.afterCalls_width]
    exact hwidth
  · rw [CMSketch.afterCalls_depth]
    exact hwords

/-- **No call faults**, and the arrays are those of the sketch. -/
theorem run_holdsSketch (hwidth : 1 ≤ width) (hwords : ∀ u ∈ updates, u.HasWords depth) :
    ∃ s, EcallCMSketch.run width depth updates = .ok s ∧
      HoldsSketch s (CMSketch.afterCalls width.toNat depth.toNat updates) := by
  refine Loops.foldlM_ok
    (P := fun pre s => HoldsSketch s (CMSketch.afterCalls width.toNat depth.toNat pre))
    (holdsSketch_init width depth) ?_
  intro pre u rest s hcut hs
  have hmem : u ∈ updates := hcut ▸ List.mem_append_right pre List.mem_cons_self
  exact hs.call hwidth (hwords u hmem)

/-- What the arrays hold. -/
theorem HoldsSketch.afterCalls_counter {s : EcallCMSketch} {i p : Nat}
    (h : HoldsSketch s (CMSketch.afterCalls width.toNat depth.toNat updates))
    (htotal : totalCount updates < 2 ^ 32) (hi : i < depth.toNat) (hp : p < width.toNat) :
    ∃ c, s.counter i p = some c ∧ c.toNat = cellCount width.toNat updates i p := by
  have hcounter := h.counters i p (by rwa [CMSketch.afterCalls_depth])
    (by rwa [CMSketch.afterCalls_width])
  rw [CMSketch.afterCalls_counter_of_lt htotal hi] at hcounter
  exact Option.map_eq_some_iff.mp hcounter

/-- What they estimate. -/
theorem HoldsSketch.afterCalls_estimate {s : EcallCMSketch} {chunkHash : Bytes}
    (h : HoldsSketch s (CMSketch.afterCalls width.toNat depth.toNat updates)) (hwidth : 1 ≤ width)
    (htotal : totalCount updates < 2 ^ 32) (hhash : 4 * depth.toNat ≤ chunkHash.length)
    (chunkHashLen : UInt64) :
    ∃ e, s.estimate chunkHash chunkHashLen = .ok e ∧
      e.toNat = CountMin.estimate UpdateCall.weight UpdateCall.chunkHash (wordPos width.toNat)
        (2 ^ 32 - 1) (List.range depth.toNat) chunkHash updates := by
  rw [← CMSketch.afterCalls_estimate htotal]
  refine h.estimate ?_ ?_ chunkHashLen
  · rw [CMSketch.afterCalls_width]
    exact hwidth
  · rw [CMSketch.afterCalls_depth]
    exact hhash

/-- The estimate of a hash: it is not below the counts of the hash and not above the counter
of the hash in any row, and no further call lowers it. -/
def EstimateSound (width depth : UInt32) (updates : List UpdateCall) (s : EcallCMSketch)
    (chunkHash : Bytes) (chunkHashLen : UInt64) : Prop :=
  ∃ e, s.estimate chunkHash chunkHashLen = .ok e ∧ trueCount updates chunkHash ≤ e.toNat ∧
    (∀ i < depth.toNat,
      e.toNat ≤ cellCount width.toNat updates i (wordPos width.toNat i chunkHash)) ∧
    ∀ u : UpdateCall, u.HasWords depth → totalCount (updates ++ [u]) < 2 ^ 32 →
      ∃ s' e', s.call u = .ok s' ∧ s'.estimate chunkHash chunkHashLen = .ok e' ∧
        e.toNat ≤ e'.toNat

/-- The counters after a sequence of calls are the counts of their calls, and every hash that
reaches all rows has a sound estimate. -/
def SketchSound (width depth : UInt32) (updates : List UpdateCall) : Prop :=
  ∃ s, EcallCMSketch.run width depth updates = .ok s ∧
    (∀ i p, i < depth.toNat → p < width.toNat →
      ∃ c, s.counter i p = some c ∧ c.toNat = cellCount width.toNat updates i p) ∧
    ∀ chunkHash chunkHashLen, 4 * depth.toNat ≤ chunkHash.length →
      EstimateSound width depth updates s chunkHash chunkHashLen

/-- **The sketch counts**: for every sequence of calls on a new sketch whose counts add up to
less than 2³², every counter holds the counts of its calls, and every estimate lies between
the counts of its hash and those of each of its counters and never falls. -/
theorem sketch_sound (hwidth : 1 ≤ width) (hwords : ∀ u ∈ updates, u.HasWords depth)
    (htotal : totalCount updates < 2 ^ 32) : SketchSound width depth updates := by
  obtain ⟨s, hrun, hs⟩ := run_holdsSketch hwidth hwords
  refine ⟨s, hrun, fun i p hi hp => hs.afterCalls_counter htotal hi hp, ?_⟩
  intro chunkHash len hhash
  obtain ⟨e, he, hvalue⟩ := hs.afterCalls_estimate hwidth htotal hhash len
  refine ⟨e, he, ?_, ?_, ?_⟩
  · rw [hvalue]
    exact CountMin.count_le_estimate _ _ _ (Nat.le_sub_one_of_lt htotal)
  · intro i hi
    rw [hvalue]
    exact CountMin.estimate_le_cell _ _ _ (List.mem_range.mpr hi)
  · intro u hu htotal'
    obtain ⟨s', hcall, hs'⟩ := hs.call hwidth hu
    obtain ⟨e', he', hvalue'⟩ := hs'.afterCalls_estimate hwidth htotal' hhash len
    refine ⟨s', e', hcall, he', ?_⟩
    rw [hvalue, hvalue']
    exact CountMin.estimate_le_append _ _ _ [u]

/-- Two rows, and two hashes that share the counter of the second row. -/
theorem sketch_sound_small :
    SketchSound 2 2 [⟨[1, 0, 0, 0, 2, 0, 0, 0], 8, 5⟩, ⟨[0, 0, 0, 0, 4, 0, 0, 0], 8, 7⟩] :=
  sketch_sound (by decide) (by decide) (by decide)

end Debe
