import Debe.IndexCipher
import Debe.Lib.Loops
import Debe.Lib.WaterFill
import Mathlib.Algebra.BigOperators.Ring.Finset
import Mathlib.Data.List.Sort
import Mathlib.Data.Rat.Floor
import Mathlib.Tactic.NormNum
import Mathlib.Tactic.Positivity

/-!
# The threshold solver

TED takes its threshold from `OpSolver`.  Given the frequencies of the unique chunks and a
blow-up rate, the solver allows `m` ciphertext chunks, gives all of them the same frequency,
and finds the least plaintext chunk that has less than its share.  That chunk keeps its own
frequency and the average of the rest grows, until no chunk is below its share.

The doubles are exact rationals here.  A conversion to an integer type that cannot hold the
value is a fault.

The rounds pour the frequencies as in `WaterFill`, but the average of the first round is
never stored: when nothing is below it, the answer is one whatever it is.
-/

namespace Debe

namespace Sim

open WaterFill

/-- A `double` as an unsigned integer of `bits` bits: the fraction is cut off. -/
def toUnsigned (bits : Nat) (x : ℚ) : Except Fault Nat :=
  if -1 < x ∧ x < 2 ^ bits then .ok ⌊x⌋.toNat else .error .outOfRange

/-- An entry of a distribution: a name and a frequency. -/
abbrev FreqItem := Bytes × UInt64

/-- The frequency as the comparator of the sort sees it, an `int`. -/
def comparedFreq (item : FreqItem) : Int := asInt item.2.toNat

/-- A sort by that comparator, which leaves ties open. -/
structure FreqSort where
  sort : List FreqItem → List FreqItem
  sort_perm : ∀ l, (sort l).Perm l
  sort_sorted : ∀ l, (sort l).Pairwise fun a b => comparedFreq a ≤ comparedFreq b

/-- The members of `OpSolver` that the solver computes with. -/
structure OpSolver where
  uniqueChunkNum : Nat
  totalChunkNum : UInt64
  expUniqueChunkNum : Nat
  currentAvg : ℚ
  inputFeqDistr : List FreqItem
  outputFeqDistr : List ℚ
  currentIndex : Nat
  remainSum : Nat
  finalResult : Nat

namespace OpSolver

/-- The sum of the frequencies in a `size_t`. -/
def sumFreq (inputDistri : List FreqItem) : UInt64 :=
  inputDistri.foldl (fun total item => total + item.2) 0

/-- The constructor. -/
def init (blowUpRate : ℚ) (inputDistri : List FreqItem) : Except Fault OpSolver := do
  let totalChunkNum := sumFreq inputDistri
  let expUniqueChunkNum ← toUnsigned 64 ⌈blowUpRate * inputDistri.length⌉
  let expAverageFreq : ℚ := totalChunkNum.toNat / expUniqueChunkNum
  return {
    uniqueChunkNum := inputDistri.length
    totalChunkNum := totalChunkNum
    expUniqueChunkNum := expUniqueChunkNum
    currentAvg := 0
    inputFeqDistr := inputDistri
    outputFeqDistr := List.replicate expUniqueChunkNum expAverageFreq
    currentIndex := 0
    remainSum := totalChunkNum.toNat
    finalResult := 0 }

/-- The loop of `CheckConstrain`: the first of the next `left` indices whose input is below
its output. -/
def firstBelow (s : OpSolver) : Nat → Nat → Except Fault (Option Nat)
  | 0, _ => return none
  | left+1, counter => do
      let input ← inRange s.inputFeqDistr[counter]?
      let output ← inRange s.outputFeqDistr[counter]?
      if (input.2.toNat : ℚ) < output then return some counter
      firstBelow s left (counter + 1)

/-- `CheckConstrain`. -/
def checkConstrain (s : OpSolver) (startIndex : Nat) : Except Fault (Bool × OpSolver) := do
  match ← s.firstBelow (s.uniqueChunkNum - startIndex) startIndex with
  | none => return (true, s)
  | some counter => return (false, { s with currentIndex := counter })

/-- `outputFeqDistr_[index] = freq`. -/
def setOutput (s : OpSolver) (index : Nat) (freq : ℚ) : Except Fault OpSolver :=
  if index < s.outputFeqDistr.length then
    .ok { s with outputFeqDistr := s.outputFeqDistr.set index freq }
  else .error .outOfRange

/-- What a failing round does once `finishItem` is counted up.  No more items are finished than
there are outputs before the written one, so the difference does not wrap. -/
def finish (s : OpSolver) (finishItem : Nat) : Except Fault OpSolver := do
  let input ← inRange s.inputFeqDistr[s.currentIndex]?
  let s ← s.setOutput s.currentIndex input.2.toNat
  let output ← inRange s.outputFeqDistr[s.currentIndex]?
  let remainSum ← toUnsigned 64 (s.remainSum - output)
  let currentAvg : ℚ := remainSum / (s.expUniqueChunkNum - finishItem : ℕ)
  { s with remainSum := remainSum, currentAvg := currentAvg }.setOutput
    (s.currentIndex + 1) currentAvg

/-- The loop of `GetOptimal`.  Every failing round starts the next one after the item that it
finished, so one round more than there are items is enough. -/
def rounds : Nat → OpSolver → Nat → Nat → Except Fault OpSolver
  | 0, _, _, _ => .error .outOfRange
  | fuel+1, s, startIndex, finishItem => do
      let r ← s.checkConstrain startIndex
      if r.1 then
        return if r.2.currentAvg < 1 then { r.2 with currentAvg := 1 } else r.2
      let s ← r.2.finish (finishItem + 1)
      rounds fuel s (s.currentIndex + 1) (finishItem + 1)

/-- `GetOptimal`, with the object that it leaves. -/
def getOptimal (p : FreqSort) (s : OpSolver) : Except Fault (Nat × OpSolver) := do
  let s := { s with inputFeqDistr := p.sort s.inputFeqDistr, currentAvg := 0 }
  let s ← rounds (s.uniqueChunkNum + 1) s 0 0
  let finalResult ← toUnsigned 32 ⌈s.currentAvg⌉
  return (finalResult, { s with finalResult := finalResult })

/-- `new OpSolver(...)->GetOptimal()`. -/
def solve (p : FreqSort) (blowUpRate : ℚ) (inputDistri : List FreqItem) : Except Fault Nat := do
  let s ← init blowUpRate inputDistri
  let r ← s.getOptimal p
  return r.1

end OpSolver

/-! ## Conversions -/

/-- A conversion of a value in range. -/
theorem toUnsigned_natCast {bits n : Nat} (h : n < 2 ^ bits) :
    toUnsigned bits (n : ℚ) = .ok n := by
  have hrange : (-1 : ℚ) < n ∧ (n : ℚ) < 2 ^ bits :=
    ⟨neg_one_lt_zero.trans_le (Nat.cast_nonneg n), by exact_mod_cast h⟩
  rw [toUnsigned, if_pos hrange, Int.floor_natCast, Int.toNat_natCast]

theorem toUnsigned_of_le {bits n : Nat} (h : 2 ^ bits ≤ n) :
    toUnsigned bits (n : ℚ) = .error .outOfRange := by
  have hrange : ¬(n : ℚ) < 2 ^ bits := not_lt.mpr (by exact_mod_cast h)
  rw [toUnsigned, if_neg fun hlt => hrange hlt.2]

/-- A ceiling that is not negative is a natural number. -/
theorem cast_ceil_toNat {x : ℚ} (hpos : 0 ≤ x) : ((⌈x⌉.toNat : ℕ) : ℚ) = ⌈x⌉ := by
  exact_mod_cast Int.toNat_of_nonneg (Int.ceil_nonneg hpos)

/-! ## A round -/

/-- The frequencies of a distribution. -/
def freqs (items : List FreqItem) : List ℚ :=
  items.map fun item => (item.2.toNat : ℚ)

theorem length_freqs (items : List FreqItem) : (freqs items).length = items.length :=
  List.length_map _

theorem freqs_getElem? {items : List FreqItem} {i : Nat} {f : ℚ} (h : (freqs items)[i]? = some f) :
    ∃ item, items[i]? = some item ∧ (item.2.toNat : ℚ) = f := by
  rw [freqs, List.getElem?_map, Option.map_eq_some_iff] at h
  exact h

/-- The solver before a round when `j` items are finished: their outputs are their
frequencies, the next output is the share of the rest, and those after it are still the
average of the start. -/
structure Finished (items : List FreqItem) (total m j : Nat) (s : OpSolver) : Prop where
  unique : s.uniqueChunkNum = items.length
  places : s.expUniqueChunkNum = m
  input : s.inputFeqDistr = items
  output : s.outputFeqDistr = (freqs items).take j ++
    share (total : ℚ) (freqs items) m j ::
      List.replicate (m - j - 1) (share (total : ℚ) (freqs items) m 0)
  remain : (s.remainSum : ℚ) = total - ((freqs items).take j).sum
  average : s.currentAvg = if j = 0 then 0 else share (total : ℚ) (freqs items) m j
  passed : Passed (total : ℚ) (freqs items) m j

namespace OpSolver

variable {items : List FreqItem} {total m j : Nat} {s : OpSolver}

/-- A loop that finds no input below its output goes through. -/
theorem firstBelow_eq_none (left counter : Nat)
    (h : ∀ c, counter ≤ c → c < counter + left → ∃ item output, s.inputFeqDistr[c]? = some item ∧
      s.outputFeqDistr[c]? = some output ∧ output ≤ item.2.toNat) :
    s.firstBelow left counter = .ok none := by
  induction left generalizing counter with
  | zero => rfl
  | succ left ih =>
      obtain ⟨item, output, hinput, houtput, hle⟩ := h counter le_rfl (by omega)
      rw [firstBelow, inRange_eq_ok.mpr hinput, inRange_eq_ok.mpr houtput]
      dsimp only [bind, Except.bind]
      rw [if_neg (not_lt.mpr hle)]
      exact ih (counter + 1) fun c hc hlt => h c (by omega) (by omega)

/-- A loop that starts below an output stops there. -/
theorem firstBelow_eq_some {left counter : Nat} {item : FreqItem} {output : ℚ}
    (hinput : s.inputFeqDistr[counter]? = some item)
    (houtput : s.outputFeqDistr[counter]? = some output) (hlt : (item.2.toNat : ℚ) < output) :
    s.firstBelow (left + 1) counter = .ok (some counter) := by
  rw [firstBelow, inRange_eq_ok.mpr hinput, inRange_eq_ok.mpr houtput]
  dsimp only [bind, Except.bind]
  rw [if_pos hlt]
  rfl

/-- What a failing round leaves when it finishes an item of frequency `freq`. -/
def finished (s : OpSolver) (freq places : Nat) : OpSolver :=
  { s with
    remainSum := s.remainSum - freq
    currentAvg := ((s.remainSum - freq : ℕ) : ℚ) / places
    outputFeqDistr := (s.outputFeqDistr.set s.currentIndex (freq : ℚ)).set (s.currentIndex + 1)
      (((s.remainSum - freq : ℕ) : ℚ) / places) }

theorem finish_eq {item : FreqItem} {finishItem : Nat}
    (hinput : s.inputFeqDistr[s.currentIndex]? = some item) (hle : item.2.toNat ≤ s.remainSum)
    (hword : s.remainSum < 2 ^ 64) (hroom : s.currentIndex + 1 < s.outputFeqDistr.length) :
    s.finish finishItem = .ok (s.finished item.2.toNat (s.expUniqueChunkNum - finishItem)) := by
  have hfirst : s.setOutput s.currentIndex item.2.toNat =
      .ok { s with outputFeqDistr := s.outputFeqDistr.set s.currentIndex item.2.toNat } :=
    if_pos (Nat.lt_of_succ_lt hroom)
  have hread : (s.outputFeqDistr.set s.currentIndex (item.2.toNat : ℚ))[s.currentIndex]? =
      some (item.2.toNat : ℚ) := List.getElem?_set_self (Nat.lt_of_succ_lt hroom)
  have hconv : toUnsigned 64 ((s.remainSum : ℚ) - item.2.toNat) =
      .ok (s.remainSum - item.2.toNat) := by
    rw [← Nat.cast_sub hle]
    exact toUnsigned_natCast (by omega)
  rw [finish, inRange_eq_ok.mpr hinput]
  dsimp only [bind, Except.bind]
  rw [hfirst]
  dsimp only
  rw [inRange_eq_ok.mpr hread]
  dsimp only
  rw [hconv]
  dsimp only
  exact if_pos (by rw [List.length_set]; exact hroom)

end OpSolver

variable {items : List FreqItem} {total m j : Nat} {s : OpSolver}

theorem length_take_freqs (hj : j ≤ items.length) : ((freqs items).take j).length = j := by
  rw [List.length_take, length_freqs, Nat.min_eq_left hj]

/-- The output of the next item. -/
theorem Finished.output_next (h : Finished items total m j s) (hj : j ≤ items.length) :
    s.outputFeqDistr[j]? = some (share (total : ℚ) (freqs items) m j) := by
  have hlen := length_take_freqs hj
  rw [h.output, List.getElem?_append_right hlen.le, hlen, Nat.sub_self, List.getElem?_cons_zero]

/-- The outputs after it. -/
theorem Finished.output_later (h : Finished items total m j s) (hj : j ≤ items.length) {c : Nat}
    (hc : j < c) (hm : c < m) :
    s.outputFeqDistr[c]? = some (share (total : ℚ) (freqs items) m 0) := by
  have hlen := length_take_freqs hj
  obtain ⟨d, rfl⟩ : ∃ d, c = j + (d + 1) := ⟨c - j - 1, by omega⟩
  rw [h.output, List.getElem?_append_right (by omega), hlen, Nat.add_sub_cancel_left,
    List.getElem?_cons_succ]
  exact List.getElem?_replicate_of_lt (by omega)

theorem Finished.length_output (h : Finished items total m j s) (hj : j ≤ items.length)
    (hm : j < m) : s.outputFeqDistr.length = m := by
  rw [h.output, List.length_append, length_take_freqs hj, List.length_cons,
    List.length_replicate]
  omega

/-- `CheckConstrain` stops at an item below its share. -/
theorem Finished.check_below (h : Finished items total m j s) {f : ℚ}
    (hf : (freqs items)[j]? = some f) (hlt : f < share (total : ℚ) (freqs items) m j) :
    s.checkConstrain j = .ok (false, { s with currentIndex := j }) := by
  obtain ⟨item, hitem, rfl⟩ := freqs_getElem? hf
  obtain ⟨hj, -⟩ := List.getElem?_eq_some_iff.mp hitem
  obtain ⟨left, hleft⟩ : ∃ left, s.uniqueChunkNum - j = left + 1 :=
    ⟨items.length - j - 1, by rw [h.unique]; omega⟩
  rw [OpSolver.checkConstrain, hleft,
    OpSolver.firstBelow_eq_some (h.input ▸ hitem) (h.output_next hj.le) hlt]
  rfl

/-- `CheckConstrain` goes through when the next item reaches its share, since the items after
it are compared with the average of the start, which is not larger. -/
theorem Finished.check_holds (h : Finished items total m j s)
    (hsorted : (freqs items).Pairwise (· ≤ ·)) (hm : items.length ≤ m) {f : ℚ}
    (hf : (freqs items)[j]? = some f) (hle : share (total : ℚ) (freqs items) m j ≤ f) :
    s.checkConstrain j = .ok (true, s) := by
  obtain ⟨hj, hget⟩ := List.getElem?_eq_some_iff.mp hf
  have hlen := length_freqs items
  have hstart : share (total : ℚ) (freqs items) m 0 ≤ f :=
    (h.passed.share_le (by omega) (Nat.zero_le j)).trans hle
  have hnone : s.firstBelow (s.uniqueChunkNum - j) j = .ok none := by
    refine OpSolver.firstBelow_eq_none _ _ fun c hc hlt => ?_
    rw [h.unique] at hlt
    have hcf : c < (freqs items).length := by omega
    obtain ⟨item, hitem, hfreq⟩ := freqs_getElem? (List.getElem?_eq_getElem hcf)
    rcases Nat.eq_or_lt_of_le hc with rfl | hlater
    · refine ⟨item, _, h.input ▸ hitem, h.output_next (by omega), ?_⟩
      rw [hfreq, hget]
      exact hle
    · refine ⟨item, _, h.input ▸ hitem, h.output_later (by omega) hlater (by omega), ?_⟩
      have hmono := List.pairwise_iff_getElem.mp hsorted j c hj hcf hlater
      rw [hfreq]
      exact hstart.trans (hget ▸ hmono)
  rw [OpSolver.checkConstrain, hnone]
  rfl

theorem freqs_nonneg {f : ℚ} (hf : f ∈ freqs items) : 0 ≤ f := by
  obtain ⟨item, -, rfl⟩ := List.mem_map.mp hf
  exact Nat.cast_nonneg _

theorem sum_take_nonneg (items : List FreqItem) (j : Nat) : 0 ≤ ((freqs items).take j).sum :=
  List.sum_nonneg fun _ hf => freqs_nonneg (List.mem_of_mem_take hf)

/-- An item below its share is not more than what is left. -/
theorem Finished.le_remain (h : Finished items total m j s) (hm : j < m) {k : Nat}
    (hlt : (k : ℚ) < share (total : ℚ) (freqs items) m j) : k ≤ s.remainSum := by
  have hmul : share (total : ℚ) (freqs items) m j * (m - j) = s.remainSum :=
    (share_mul hm).trans h.remain.symm
  have hpos : (0 : ℚ) ≤ share (total : ℚ) (freqs items) m j :=
    (Nat.cast_nonneg k).trans hlt.le
  have hplaces : (1 : ℚ) ≤ m - j := by
    rw [le_sub_iff_add_le, add_comm]
    exact_mod_cast hm
  have hshare : share (total : ℚ) (freqs items) m j ≤ s.remainSum :=
    (le_mul_of_one_le_right hpos hplaces).trans_eq hmul
  exact_mod_cast hlt.le.trans hshare

theorem Finished.remain_le (h : Finished items total m j s) : s.remainSum ≤ total := by
  have hcast : (s.remainSum : ℚ) ≤ total :=
    h.remain.trans_le (sub_le_self _ (sum_take_nonneg items j))
  exact_mod_cast hcast

/-- The outputs once one more item is finished. -/
theorem set_outputs {fs : List ℚ} {f x y avg : ℚ} {r : Nat} (hf : fs[j]? = some f) :
    ((fs.take j ++ x :: List.replicate (r + 1) y).set j f).set (j + 1) avg =
      fs.take (j + 1) ++ avg :: List.replicate r y := by
  obtain ⟨hj, -⟩ := List.getElem?_eq_some_iff.mp hf
  have hlen : (fs.take j).length = j := List.length_take_of_le hj.le
  rw [List.set_append_right _ _ hlen.le, hlen, Nat.sub_self, List.set_cons_zero,
    List.set_append_right _ _ (by omega), hlen, Nat.add_sub_cancel_left, List.set_cons_succ,
    List.replicate_succ, List.set_cons_zero, List.take_add_one, hf, Option.toList_some,
    List.append_assoc, List.singleton_append]

/-- **One failing round** finishes the item at which it failed. -/
theorem Finished.finish (h : Finished items total m j s) (hindex : s.currentIndex = j)
    (htotal : total < 2 ^ 64) {f : ℚ} (hf : (freqs items)[j]? = some f)
    (hlt : f < share (total : ℚ) (freqs items) m j) (hm : j + 1 < m) :
    ∃ s', s.finish (j + 1) = .ok s' ∧ Finished items total m (j + 1) s' ∧
      s'.currentIndex = j := by
  obtain ⟨item, hitem, rfl⟩ := freqs_getElem? hf
  obtain ⟨hj, hget⟩ := List.getElem?_eq_some_iff.mp hf
  have hout := h.length_output (by rw [← length_freqs]; omega) (by omega)
  have hle := h.le_remain (by omega) hlt
  have hremain : ((s.remainSum - item.2.toNat : ℕ) : ℚ) =
      total - ((freqs items).take (j + 1)).sum := by
    rw [Nat.cast_sub hle, h.remain, List.sum_take_succ _ j hj, hget]
    ring
  have hshare : ((s.remainSum - item.2.toNat : ℕ) : ℚ) / (m - (j + 1) : ℕ) =
      share (total : ℚ) (freqs items) m (j + 1) := by
    rw [hremain, Nat.cast_sub hm.le, share]
  have hrun : s.finish (j + 1) = .ok (s.finished item.2.toNat (s.expUniqueChunkNum - (j + 1))) :=
    OpSolver.finish_eq (hindex ▸ h.input ▸ hitem) hle (h.remain_le.trans_lt htotal) (by omega)
  refine ⟨_, hrun, ?_, hindex⟩
  obtain ⟨r, hr⟩ : ∃ r, m - j - 1 = r + 1 := ⟨m - j - 2, by omega⟩
  have hr' : m - (j + 1) - 1 = r := by omega
  exact {
    unique := h.unique
    places := h.places
    input := h.input
    output := by
      show ((s.outputFeqDistr.set s.currentIndex _).set (s.currentIndex + 1) _) = _
      rw [h.output, hindex, h.places, hshare, hr, set_outputs hf, hr']
    remain := hremain
    average := by
      show _ / _ = _
      rw [h.places, hshare, if_neg (Nat.succ_ne_zero j)]
    passed := h.passed.succ hf hlt }

/-! ## All rounds -/

/-- The average that the solver ends with: of the round that no item failed, or one. -/
def Stops (fs : List ℚ) (total m : Nat) (avg : ℚ) : Prop :=
  ∃ j f, fs[j]? = some f ∧ Passed (total : ℚ) fs m j ∧ share (total : ℚ) fs m j ≤ f ∧
    avg = max 1 (if j = 0 then 0 else share (total : ℚ) fs m j)

/-- A sorted distribution that the solver can pour into `m` places: it is not empty and not
longer than that, and the total is not above its sum and fits a `size_t`. -/
structure Pourable (items : List FreqItem) (total m : Nat) : Prop where
  sorted : (freqs items).Pairwise (· ≤ ·)
  nonempty : items ≠ []
  length_le : items.length ≤ m
  total_le : (total : ℚ) ≤ (freqs items).sum
  word : total < 2 ^ 64

/-- The last item is never finished. -/
theorem Pourable.lt_length (hpour : Pourable items total m)
    (hpassed : Passed (total : ℚ) (freqs items) m j) : j < items.length := by
  have hlen := length_freqs items
  have hne : freqs items ≠ [] := by
    rw [freqs, ne_eq, List.map_eq_nil_iff]
    exact hpour.nonempty
  exact hlen ▸ hpassed.lt_length hpour.total_le hne (fun _ hf => freqs_nonneg hf)
    (hlen ▸ hpour.length_le)

/-- The average after an item below its share is not less than before it. -/
theorem Finished.average_le {s' : OpSolver} (h : Finished items total m j s)
    (h' : Finished items total m (j + 1) s') {f : ℚ} (hf : (freqs items)[j]? = some f)
    (hlt : f < share (total : ℚ) (freqs items) m j) (hm : j + 1 < m) :
    s.currentAvg ≤ s'.currentAvg := by
  have hgrows : share (total : ℚ) (freqs items) m j < share (total : ℚ) (freqs items) m (j + 1) :=
    share_lt_succ hf hlt hm
  have hpos : 0 ≤ f := freqs_nonneg (List.mem_of_getElem? hf)
  rw [h.average, h'.average, if_neg (Nat.succ_ne_zero j)]
  split
  · exact (hpos.trans_lt (hlt.trans hgrows)).le
  · exact hgrows.le

/-- **One round**: the check goes through and the next item reaches its share, or the next
item is finished, a place is left after it and the average does not fall. -/
theorem Finished.round (h : Finished items total m j s) (hpour : Pourable items total m) :
    (∃ f, (freqs items)[j]? = some f ∧ share (total : ℚ) (freqs items) m j ≤ f ∧
      s.checkConstrain j = .ok (true, s)) ∨
    ∃ s', s.checkConstrain j = .ok (false, { s with currentIndex := j }) ∧
      { s with currentIndex := j }.finish (j + 1) = .ok s' ∧ Finished items total m (j + 1) s' ∧
      s'.currentIndex = j ∧ j + 1 < m ∧ s.currentAvg ≤ s'.currentAvg := by
  have hj : j < (freqs items).length := (length_freqs items).symm ▸ hpour.lt_length h.passed
  have hf : (freqs items)[j]? = some (freqs items)[j] := List.getElem?_eq_getElem hj
  rcases lt_or_ge (freqs items)[j] (share (total : ℚ) (freqs items) m j) with hlt | hle
  · have hroom : j + 1 < m :=
      Nat.lt_of_lt_of_le (hpour.lt_length (h.passed.succ hf hlt)) hpour.length_le
    have hmark : Finished items total m j { s with currentIndex := j } :=
      ⟨h.unique, h.places, h.input, h.output, h.remain, h.average, h.passed⟩
    obtain ⟨s', hrun, hs', hindex⟩ := hmark.finish rfl hpour.word hf hlt hroom
    exact .inr ⟨s', h.check_below hf hlt, hrun, hs', hindex, hroom, h.average_le hs' hf hlt hroom⟩
  · exact .inl ⟨_, hf, hle, h.check_holds hpour.sorted hpour.length_le hf hle⟩

/-- **The rounds end**, whichever items are finished. -/
theorem Finished.rounds (hpour : Pourable items total m) {fuel : Nat}
    (hfuel : items.length - j < fuel) (h : Finished items total m j s) :
    ∃ s', OpSolver.rounds fuel s j j = .ok s' ∧ Stops (freqs items) total m s'.currentAvg := by
  induction fuel generalizing j s with
  | zero => exact absurd hfuel (Nat.not_lt_zero _)
  | succ fuel ih =>
      have hj : j < items.length := hpour.lt_length h.passed
      rw [OpSolver.rounds]
      rcases h.round hpour with ⟨f, hf, hle, hcheck⟩ | ⟨s', hcheck, hrun, hs', hindex, -, -⟩
      · rw [hcheck]
        dsimp only [bind, Except.bind]
        rw [if_pos rfl]
        refine ⟨_, rfl, j, _, hf, h.passed, hle, ?_⟩
        rw [← h.average]
        split
        case isTrue hlow => exact (max_eq_left hlow.le).symm
        case isFalse hhigh => exact (max_eq_right (not_lt.mp hhigh)).symm
      · rw [hcheck]
        dsimp only [bind, Except.bind]
        rw [if_neg Bool.false_ne_true, hrun]
        dsimp only
        rw [hindex]
        exact ih (by omega) hs'

/-- The state of the first round. -/
theorem finished_zero (hunique : s.uniqueChunkNum = items.length)
    (hplaces : s.expUniqueChunkNum = m) (hinput : s.inputFeqDistr = items)
    (houtput : s.outputFeqDistr = List.replicate m ((total : ℚ) / m)) (hm : 0 < m)
    (hremain : s.remainSum = total) (havg : s.currentAvg = 0) :
    Finished items total m 0 s where
  unique := hunique
  places := hplaces
  input := hinput
  output := by
    obtain ⟨r, rfl⟩ := Nat.exists_eq_succ_of_ne_zero hm.ne'
    rw [houtput, share_zero, List.take_zero, List.nil_append]
    rfl
  remain := by rw [hremain, List.take_zero, List.sum_nil, sub_zero]
  average := by rw [havg, if_pos rfl]
  passed := passed_zero

/-! ## The level -/

/-- The number of places of the ciphertext chunks. -/
def places (blowUpRate : ℚ) (inputDistri : List FreqItem) : Nat :=
  ⌈blowUpRate * inputDistri.length⌉.toNat

/-- The frequencies in ascending order. -/
def sortedFreqs (inputDistri : List FreqItem) : List ℚ :=
  (freqs inputDistri).insertionSort (· ≤ ·)

theorem sortedFreqs_sorted (inputDistri : List FreqItem) :
    (sortedFreqs inputDistri).Pairwise (· ≤ ·) :=
  List.pairwise_insertionSort _ _

theorem length_sortedFreqs (inputDistri : List FreqItem) :
    (sortedFreqs inputDistri).length = inputDistri.length := by
  rw [sortedFreqs, List.length_insertionSort, length_freqs]

theorem mem_sortedFreqs {inputDistri : List FreqItem} {f : ℚ} :
    f ∈ sortedFreqs inputDistri ↔ ∃ item ∈ inputDistri, (item.2.toNat : ℚ) = f := by
  rw [sortedFreqs, List.mem_insertionSort, freqs, List.mem_map]

/-- The level of the sorted frequencies. -/
def waterLevel (blowUpRate : ℚ) (inputDistri : List FreqItem) : ℚ :=
  level (sortedFreqs inputDistri) (places blowUpRate inputDistri)

/-- The sum of the frequencies. -/
def totalFreq (inputDistri : List FreqItem) : Nat :=
  (inputDistri.map fun item => item.2.toNat).sum

theorem sum_freqs (items : List FreqItem) : (freqs items).sum = totalFreq items := by
  rw [totalFreq, Nat.cast_list_sum, List.map_map]
  rfl

/-- The sum in a `size_t` wraps. -/
theorem toNat_sumFreq (items : List FreqItem) :
    (OpSolver.sumFreq items).toNat = totalFreq items % 2 ^ 64 := by
  have hfold (a : UInt64) : (items.foldl (fun total item => total + item.2) a).toNat =
      (a.toNat + totalFreq items) % 2 ^ 64 := by
    induction items generalizing a with
    | nil => exact (Nat.mod_eq_of_lt a.toNat_lt).symm
    | cons item items ih =>
        rw [List.foldl_cons, ih, UInt64.toNat_add, Nat.mod_add_mod, totalFreq, totalFreq,
          List.map_cons, List.sum_cons, Nat.add_assoc]
  rw [OpSolver.sumFreq, hfold, UInt64.toNat_zero, Nat.zero_add]

/-- The sort of the solver sorts the frequencies. -/
theorem freqs_sort (p : FreqSort) {inputDistri : List FreqItem}
    (hfreq : ∀ item ∈ inputDistri, item.2.toNat < 2 ^ 31) :
    freqs (p.sort inputDistri) = sortedFreqs inputDistri := by
  have hperm : (freqs (p.sort inputDistri)).Perm (sortedFreqs inputDistri) :=
    ((p.sort_perm inputDistri).map _).trans (List.perm_insertionSort _ _).symm
  have hkey {item : FreqItem} (hitem : item ∈ p.sort inputDistri) :
      comparedFreq item = item.2.toNat :=
    asInt_of_lt (hfreq item ((p.sort_perm inputDistri).mem_iff.mp hitem))
  have hsorted : (freqs (p.sort inputDistri)).Pairwise (· ≤ ·) := by
    refine List.pairwise_map.mpr ((p.sort_sorted inputDistri).imp_of_mem fun ha hb hle => ?_)
    rw [hkey ha, hkey hb] at hle
    exact_mod_cast hle
  exact hperm.eq_of_pairwise' hsorted (sortedFreqs_sorted inputDistri)

theorem sum_sortedFreqs (inputDistri : List FreqItem) :
    (sortedFreqs inputDistri).sum = totalFreq inputDistri := by
  rw [sortedFreqs, (List.perm_insertionSort _ _).sum_eq, sum_freqs]

variable {blowUpRate : ℚ} {inputDistri : List FreqItem}

theorem length_le_places (inputDistri : List FreqItem) (hblow : 1 ≤ blowUpRate) :
    inputDistri.length ≤ places blowUpRate inputDistri := by
  have hn : (0 : ℚ) ≤ inputDistri.length := Nat.cast_nonneg _
  have hle : (inputDistri.length : ℚ) ≤ blowUpRate * inputDistri.length :=
    le_mul_of_one_le_left hn hblow
  have hcast : (inputDistri.length : ℚ) ≤ (places blowUpRate inputDistri : ℚ) := by
    rw [places, cast_ceil_toNat (hn.trans hle)]
    exact hle.trans (Int.le_ceil _)
  exact_mod_cast hcast

theorem cast_places (hblow : 1 ≤ blowUpRate) : ((places blowUpRate inputDistri : ℕ) : ℚ) =
    ⌈blowUpRate * (inputDistri.length : ℚ)⌉ :=
  cast_ceil_toNat (mul_nonneg (zero_le_one.trans hblow) (Nat.cast_nonneg _))

/-- Too many places for a `size_t`. -/
theorem init_of_places (hblow : 1 ≤ blowUpRate)
    (hplaces : 2 ^ 64 ≤ places blowUpRate inputDistri) :
    OpSolver.init blowUpRate inputDistri = .error .outOfRange := by
  rw [OpSolver.init, ← cast_places hblow, toUnsigned_of_le hplaces]
  rfl

theorem solve_of_places (p : FreqSort) (hblow : 1 ≤ blowUpRate)
    (hplaces : 2 ^ 64 ≤ places blowUpRate inputDistri) :
    OpSolver.solve p blowUpRate inputDistri = .error .outOfRange := by
  rw [OpSolver.solve, init_of_places hblow hplaces]
  rfl

/-! ## The solver -/

/-- The object that the constructor builds for `m` places. -/
def OpSolver.built (m : Nat) (inputDistri : List FreqItem) : OpSolver where
  uniqueChunkNum := inputDistri.length
  totalChunkNum := OpSolver.sumFreq inputDistri
  expUniqueChunkNum := m
  currentAvg := 0
  inputFeqDistr := inputDistri
  outputFeqDistr := List.replicate m ((OpSolver.sumFreq inputDistri).toNat / m)
  currentIndex := 0
  remainSum := (OpSolver.sumFreq inputDistri).toNat
  finalResult := 0

theorem init_eq (hblow : 1 ≤ blowUpRate) (hplaces : places blowUpRate inputDistri < 2 ^ 64) :
    OpSolver.init blowUpRate inputDistri =
      .ok (.built (places blowUpRate inputDistri) inputDistri) := by
  rw [OpSolver.init, ← cast_places hblow, toUnsigned_natCast hplaces]
  rfl

theorem Stops.one_le {fs : List ℚ} {avg : ℚ} (h : Stops fs total m avg) : 1 ≤ avg := by
  obtain ⟨j, f, -, -, -, rfl⟩ := h
  exact le_max_left _ _

/-- The average is not above the frequency at which the rounds end, so that it is converted. -/
theorem Stops.toUnsigned_eq {fs : List ℚ} {avg : ℚ} (h : Stops fs total m avg)
    (hfreq : ∀ f ∈ fs, f ≤ 2 ^ 31) : toUnsigned 32 ⌈avg⌉ = .ok ⌈avg⌉.toNat := by
  have hle : avg ≤ 2 ^ 31 := by
    obtain ⟨j, f, hf, -, hle, rfl⟩ := h
    refine max_le (by norm_num) ?_
    split
    · norm_num
    · exact hle.trans (hfreq f (List.mem_of_getElem? hf))
  have hceil : ⌈avg⌉ ≤ 2 ^ 31 := Int.ceil_le.mpr (by exact_mod_cast hle)
  rw [← cast_ceil_toNat (zero_le_one.trans h.one_le)]
  exact toUnsigned_natCast (by omega)

/-- The object at the start of the loop of `GetOptimal`. -/
def OpSolver.sorted (p : FreqSort) (s : OpSolver) : OpSolver :=
  { s with inputFeqDistr := p.sort s.inputFeqDistr, currentAvg := 0 }

theorem pourable_sort (p : FreqSort) (hne : inputDistri ≠ [])
    (hfreq : ∀ item ∈ inputDistri, item.2.toNat < 2 ^ 31) (hm : inputDistri.length ≤ m) :
    Pourable (p.sort inputDistri) (OpSolver.sumFreq inputDistri).toNat m where
  sorted := by
    rw [freqs_sort p hfreq]
    exact sortedFreqs_sorted inputDistri
  nonempty := fun hnil => hne (List.nil_perm.mp (hnil ▸ p.sort_perm inputDistri))
  length_le := (p.sort_perm inputDistri).length_eq.trans_le hm
  total_le := by
    rw [freqs_sort p hfreq, sum_sortedFreqs, toNat_sumFreq]
    exact_mod_cast Nat.mod_le _ _
  word := UInt64.toNat_lt _

theorem finished_built (p : FreqSort) (hm : 0 < m) :
    Finished (p.sort inputDistri) (OpSolver.sumFreq inputDistri).toNat m 0
      ((OpSolver.built m inputDistri).sorted p) :=
  finished_zero (p.sort_perm inputDistri).length_eq.symm rfl rfl rfl hm rfl rfl

/-- `GetOptimal` on a new object. -/
theorem getOptimal_stops (p : FreqSort) (hne : inputDistri ≠ [])
    (hfreq : ∀ item ∈ inputDistri, item.2.toNat < 2 ^ 31) (hm : inputDistri.length ≤ m) :
    ∃ avg s, Stops (sortedFreqs inputDistri) (OpSolver.sumFreq inputDistri).toNat m avg ∧
      (OpSolver.built m inputDistri).getOptimal p = .ok (⌈avg⌉.toNat, s) := by
  have hlen := (p.sort_perm inputDistri).length_eq
  have hpos : 0 < inputDistri.length := List.length_pos_iff.mpr hne
  have hfuel : (p.sort inputDistri).length - 0 < inputDistri.length + 1 := by omega
  obtain ⟨s', hrun, hstops⟩ :=
    (finished_built p (by omega)).rounds (pourable_sort p hne hfreq hm) hfuel
  rw [freqs_sort p hfreq] at hstops
  have hresult : toUnsigned 32 ⌈s'.currentAvg⌉ = .ok ⌈s'.currentAvg⌉.toNat :=
    hstops.toUnsigned_eq fun f hf => by
      obtain ⟨item, hitem, rfl⟩ := mem_sortedFreqs.mp hf
      exact_mod_cast (hfreq item hitem).le
  exact ⟨_, _, hstops, Loops.bind_eq_ok.mpr ⟨s', hrun, Loops.bind_eq_ok.mpr ⟨_, hresult, rfl⟩⟩⟩

/-- **What the solver returns**: the average after the last round that failed, rounded up. -/
theorem solve_stops (p : FreqSort) (hne : inputDistri ≠ [])
    (hfreq : ∀ item ∈ inputDistri, item.2.toNat < 2 ^ 31) (hblow : 1 ≤ blowUpRate)
    (hplaces : places blowUpRate inputDistri < 2 ^ 64) :
    ∃ avg, Stops (sortedFreqs inputDistri) (OpSolver.sumFreq inputDistri).toNat
      (places blowUpRate inputDistri) avg ∧
      OpSolver.solve p blowUpRate inputDistri = .ok ⌈avg⌉.toNat := by
  obtain ⟨avg, s, hstops, hoptimal⟩ :=
    getOptimal_stops p hne hfreq (length_le_places inputDistri hblow)
  exact ⟨avg, hstops, Loops.bind_eq_ok.mpr
    ⟨_, init_eq hblow hplaces, Loops.bind_eq_ok.mpr ⟨_, hoptimal, rfl⟩⟩⟩

/-- The solver returns the level, which is one at least, rounded up. -/
def ReturnsLevel (p : FreqSort) (blowUpRate : ℚ) (inputDistri : List FreqItem) : Prop :=
  OpSolver.solve p blowUpRate inputDistri =
    .ok ⌈max 1 (waterLevel blowUpRate inputDistri)⌉.toNat

/-- The number of places and the sum of the frequencies fit a `size_t`, and the first average
is above some frequency or not above one. -/
def FirstAverageDecided (blowUpRate : ℚ) (inputDistri : List FreqItem) : Prop :=
  places blowUpRate inputDistri < 2 ^ 64 ∧ totalFreq inputDistri < 2 ^ 64 ∧
    ((∃ item ∈ inputDistri,
        (item.2.toNat : ℚ) < totalFreq inputDistri / places blowUpRate inputDistri) ∨
      totalFreq inputDistri ≤ places blowUpRate inputDistri)

instance (p : FreqSort) (blowUpRate : ℚ) (inputDistri : List FreqItem) :
    Decidable (ReturnsLevel p blowUpRate inputDistri) :=
  inferInstanceAs (Decidable (_ = _))

instance (blowUpRate : ℚ) (inputDistri : List FreqItem) :
    Decidable (FirstAverageDecided blowUpRate inputDistri) :=
  inferInstanceAs (Decidable (_ ∧ _))

theorem ceil_toNat_inj {x y : ℚ} (hx : 1 ≤ x) (hy : 1 ≤ y) :
    ⌈x⌉.toNat = ⌈y⌉.toNat ↔ ⌈x⌉ = ⌈y⌉ := by
  have hx' : 0 ≤ ⌈x⌉ := Int.ceil_nonneg (zero_le_one.trans hx)
  have hy' : 0 ≤ ⌈y⌉ := Int.ceil_nonneg (zero_le_one.trans hy)
  omega

/-- A sum that wraps: the level is more than one above any average of the solver. -/
theorem Stops.ceil_lt {fs : List ℚ} {sum : Nat} {avg : ℚ} (hsorted : fs.Pairwise (· ≤ ·))
    (hpos : ∀ f ∈ fs, 0 ≤ f) (hm : fs.length ≤ m) (hword : m < 2 ^ 64) (hsum : fs.sum = sum)
    (hwrap : total + 2 ^ 64 ≤ sum) (h : Stops fs total m avg) :
    ⌈avg⌉ < ⌈max 1 (level fs m)⌉ := by
  obtain ⟨j, f, hf, hpassed, -, rfl⟩ := h
  obtain ⟨hj, -⟩ := List.getElem?_eq_some_iff.mp hf
  have hplaces : (0 : ℚ) < m - j := places_pos (by omega)
  have hle : (total : ℚ) ≤ fs.sum := by
    rw [hsum]
    exact_mod_cast (Nat.le_add_right _ _).trans hwrap
  have hne : fs ≠ [] := List.length_pos_iff.mp (by omega)
  have hlevel := (hpassed.of_le hle (by omega)).share_le_level hsorted hne hpos hm
  have hgap : 1 < (fs.sum - total) / (m - j : ℚ) := by
    rw [one_lt_div hplaces, hsum]
    have hwrap' : (total : ℚ) + 2 ^ 64 ≤ sum := by exact_mod_cast hwrap
    have hword' : (m : ℚ) < 2 ^ 64 := by exact_mod_cast hword
    have hj' : (0 : ℚ) ≤ j := Nat.cast_nonneg j
    linarith
  have hadd : share fs.sum fs m j =
      share (total : ℚ) fs m j + (fs.sum - total) / (m - j : ℚ) := share_add
  rw [hadd] at hlevel
  have hstart : 0 ≤ share (total : ℚ) fs m j := by
    refine le_trans ?_ (hpassed.share_le (by omega) (Nat.zero_le j))
    rw [share_zero]
    positivity
  have hstored : (if j = 0 then 0 else share (total : ℚ) fs m j) ≤ share (total : ℚ) fs m j := by
    split
    · exact hstart
    · exact le_rfl
  refine Int.lt_ceil.mpr (lt_max_of_lt_right ?_)
  rcases le_total (if j = 0 then 0 else share (total : ℚ) fs m j) 1 with hlow | hhigh
  · rw [max_eq_left hlow, Int.ceil_one, Int.cast_one]
    linarith
  · rw [max_eq_right hhigh]
    have hceil := Int.ceil_lt_add_one (if j = 0 then 0 else share (total : ℚ) fs m j)
    linarith

/-- A sum that does not wrap: the solver stores the level, unless no round failed. -/
theorem Stops.ceil_eq_iff {fs : List ℚ} {avg : ℚ} (hsorted : fs.Pairwise (· ≤ ·))
    (hsum : fs.sum = total) (hm : 0 < m) (h : Stops fs total m avg) :
    ⌈avg⌉ = ⌈max 1 (level fs m)⌉ ↔ (∃ f ∈ fs, f < total / m) ∨ total ≤ m := by
  obtain ⟨j, f, hf, hpassed, hle, rfl⟩ := h
  rw [← hsum] at hpassed hle ⊢
  rw [hpassed.level_eq hsorted hf hle]
  rcases Nat.eq_zero_or_pos j with rfl | hj
  · have hlevelled : Levelled fs m 0 := (levelled_iff hsorted hf).mpr (share_sum.symm.trans_le hle)
    have hnone : ¬∃ f ∈ fs, f < fs.sum / m := by
      rintro ⟨g, hg, hlt⟩
      have hge := hlevelled g (by rwa [List.drop_zero])
      rw [← share_sum, share_zero] at hge
      exact absurd hlt (not_lt.mpr hge)
    have hone : 1 ≤ ⌈max 1 (fs.sum / m)⌉ :=
      Int.one_le_ceil_iff.mpr (zero_lt_one.trans_le (le_max_left _ _))
    have hiff : ⌈max 1 (fs.sum / m)⌉ ≤ 1 ↔ total ≤ m := by
      rw [Int.ceil_le, Int.cast_one, max_le_iff, hsum, div_le_one (by exact_mod_cast hm),
        Nat.cast_le]
      exact and_iff_right le_rfl
    rw [if_pos rfl, max_eq_left zero_le_one, Int.ceil_one, share_zero, or_iff_right hnone, ← hiff]
    exact ⟨fun heq => heq.symm.le, fun hle => le_antisymm hone hle⟩
  · obtain ⟨g, hg, hlt⟩ := hpassed 0 hj
    rw [if_neg hj.ne']
    refine iff_of_true rfl (.inl ⟨g, List.mem_of_getElem? hg, ?_⟩)
    rw [← share_zero]
    exact hlt

/-- **The solver and the water level**: for every distribution that is not empty, with
frequencies that fit an `int`, and every blow-up rate from one on, the solver returns the
level exactly when a frequency is below the first average or this average is one at most, and
no `size_t` overflows. -/
theorem returns_level_iff (p : FreqSort) (blowUpRate : ℚ) (inputDistri : List FreqItem)
    (hne : inputDistri ≠ []) (hfreq : ∀ item ∈ inputDistri, item.2.toNat < 2 ^ 31)
    (hblow : 1 ≤ blowUpRate) :
    ReturnsLevel p blowUpRate inputDistri ↔ FirstAverageDecided blowUpRate inputDistri := by
  rw [ReturnsLevel, FirstAverageDecided]
  rcases Nat.lt_or_ge (places blowUpRate inputDistri) (2 ^ 64) with hplaces | hplaces
  · obtain ⟨avg, hstops, hsolve⟩ := solve_stops p hne hfreq hblow hplaces
    have hsorted := sortedFreqs_sorted inputDistri
    have hsum := sum_sortedFreqs inputDistri
    have hpos : 0 < inputDistri.length := List.length_pos_iff.mpr hne
    have hm := length_le_places inputDistri hblow
    have hresult : OpSolver.solve p blowUpRate inputDistri =
        .ok ⌈max 1 (waterLevel blowUpRate inputDistri)⌉.toNat ↔
        ⌈avg⌉ = ⌈max 1 (waterLevel blowUpRate inputDistri)⌉ := by
      rw [hsolve, Except.ok.injEq, ceil_toNat_inj hstops.one_le (le_max_left _ _)]
    rw [hresult]
    rcases Nat.lt_or_ge (totalFreq inputDistri) (2 ^ 64) with hword | hwrap
    · rw [toNat_sumFreq, Nat.mod_eq_of_lt hword] at hstops
      rw [waterLevel, hstops.ceil_eq_iff hsorted hsum (by omega)]
      simp only [mem_sortedFreqs, exists_exists_and_eq_and]
      exact ⟨fun h => ⟨hplaces, hword, h⟩, fun h => h.2.2⟩
    · rw [toNat_sumFreq] at hstops
      have hnonneg : ∀ f ∈ sortedFreqs inputDistri, 0 ≤ f := by
        intro f hf
        obtain ⟨item, -, rfl⟩ := mem_sortedFreqs.mp hf
        exact Nat.cast_nonneg _
      have hlen := length_sortedFreqs inputDistri
      have hlt := hstops.ceil_lt hsorted hnonneg (by omega) hplaces hsum (by omega)
      exact iff_of_false hlt.ne fun h => absurd h.2.1 (Nat.not_lt.mpr hwrap)
  · rw [solve_of_places p hblow hplaces]
    exact iff_of_false nofun fun h => absurd h.1 (Nat.not_lt.mpr hplaces)

/-- A stable sort of the frequencies. -/
def insertionOrder : FreqSort where
  sort l := l.insertionSort fun a b => comparedFreq a ≤ comparedFreq b
  sort_perm l := List.perm_insertionSort _ l
  sort_sorted l := List.pairwise_insertionSort _ l

/-- Four chunks in five places. -/
theorem returns_level_small :
    ReturnsLevel insertionOrder (23 / 20) [([49], 9), ([49], 1), ([49], 100), ([49], 3)] :=
  (returns_level_iff insertionOrder (23 / 20) _ (List.cons_ne_nil _ _) (by decide)
    (by norm_num)).mpr (by decide +kernel)

/-- Two chunks of the frequency five in two places: no round fails and the answer is one. -/
theorem first_average_lost :
    let inputDistri : List FreqItem := [([49], 5), ([49], 5)]
    inputDistri ≠ [] ∧ (∀ item ∈ inputDistri, 0 < item.2.toNat ∧ item.2.toNat < 2 ^ 31) ∧
      OpSolver.solve insertionOrder 1 inputDistri = .ok 1 ∧
      ⌈max 1 (waterLevel 1 inputDistri)⌉ = 5 ∧ ¬ReturnsLevel insertionOrder 1 inputDistri := by
  intro inputDistri
  exact ⟨List.cons_ne_nil _ _, by decide, by decide +kernel, by decide +kernel,
    by decide +kernel⟩

/-! ## The rounds of a run -/

/-- The variables of the loop of `GetOptimal`. -/
structure LoopState where
  solver : OpSolver
  startIndex : Nat
  finishItem : Nat

/-- `k` failing rounds lead from the state `start` to a state before the next round. -/
inductive FailedRounds (start : LoopState) : Nat → LoopState → Prop
  | start : FailedRounds start 0 start
  | round {k : Nat} {l : LoopState} {s₁ s₂ : OpSolver} (earlier : FailedRounds start k l)
      (check : l.solver.checkConstrain l.startIndex = .ok (false, s₁))
      (finish : s₁.finish (l.finishItem + 1) = .ok s₂) :
      FailedRounds start (k + 1) ⟨s₂, s₂.currentIndex + 1, l.finishItem + 1⟩

/-- The state before the first round. -/
def OpSolver.loopStart (p : FreqSort) (s : OpSolver) : LoopState :=
  ⟨s.sorted p, 0, 0⟩

/-- The check of the round goes through, so that the loop ends. -/
def LoopState.Passes (l : LoopState) : Prop :=
  ∃ s, l.solver.checkConstrain l.startIndex = .ok (true, s)

/-- The check of the round fails at the item `startIndex = finishItem`, and the rest of the
round divides by a number that is not zero and does not lower the average. -/
def LoopState.FailsSafely (l : LoopState) : Prop :=
  ∃ s₁ s₂, l.solver.checkConstrain l.startIndex = .ok (false, s₁) ∧
    s₁.currentIndex = l.startIndex ∧ l.startIndex = l.finishItem ∧
    l.finishItem + 1 < s₁.expUniqueChunkNum ∧
    s₁.finish (l.finishItem + 1) = .ok s₂ ∧ l.solver.currentAvg ≤ s₂.currentAvg

/-- The solver is built and `GetOptimal` returns: a round passes after fewer failing ones than
there are frequencies, and no round leaves the arrays. -/
def SolverSafe (p : FreqSort) (blowUpRate : ℚ) (inputDistri : List FreqItem) : Prop :=
  ∃ s, OpSolver.init blowUpRate inputDistri = .ok s ∧ (∃ r, s.getOptimal p = .ok r) ∧
    (∃ k l, FailedRounds (s.loopStart p) k l ∧ l.Passes) ∧
    ∀ k l, FailedRounds (s.loopStart p) k l →
      k < inputDistri.length ∧ l.finishItem = k ∧ (l.Passes ∨ l.FailsSafely)

/-- More failing rounds from a state that failing rounds have reached. -/
theorem FailedRounds.trans {start l l' : LoopState} {k k' : Nat} (h : FailedRounds start k l)
    (h' : FailedRounds l k' l') : FailedRounds start (k + k') l' := by
  induction h' with
  | start => exact h
  | round _ check finish ih => exact .round ih check finish

/-- A loop that returns has reached a round that passes. -/
theorem exists_passes {fuel startIndex finishItem : Nat} {s' : OpSolver}
    (h : OpSolver.rounds fuel s startIndex finishItem = .ok s') :
    ∃ k l, FailedRounds ⟨s, startIndex, finishItem⟩ k l ∧ l.Passes := by
  induction fuel generalizing s startIndex finishItem with
  | zero => cases h
  | succ fuel ih =>
      rw [OpSolver.rounds] at h
      obtain ⟨⟨holds, s₁⟩, hcheck, h⟩ := Loops.bind_eq_ok.mp h
      cases holds with
      | true => exact ⟨0, _, .start, s₁, hcheck⟩
      | false =>
          rw [if_neg Bool.false_ne_true] at h
          obtain ⟨s₂, hfinish, h⟩ := Loops.bind_eq_ok.mp h
          obtain ⟨k, l, hrest, hpasses⟩ := ih h
          have hround : FailedRounds ⟨s, startIndex, finishItem⟩ 1
              ⟨s₂, s₂.currentIndex + 1, finishItem + 1⟩ := .round .start hcheck hfinish
          exact ⟨1 + k, l, hround.trans hrest, hpasses⟩

/-- **The items are finished in order**: `k` failing rounds finish the first `k` of them. -/
theorem FailedRounds.finished {start l : LoopState} {k : Nat} (h : FailedRounds start k l)
    (hpour : Pourable items total m) (hstart : Finished items total m 0 start.solver)
    (hindex : start.startIndex = 0) (hitem : start.finishItem = 0) :
    Finished items total m k l.solver ∧ l.startIndex = k ∧ l.finishItem = k := by
  induction h with
  | start => exact ⟨hstart, hindex, hitem⟩
  | round _ check finish ih =>
      obtain ⟨hl, hlstart, hlitem⟩ := ih
      rw [hlstart] at check
      rw [hlitem] at finish ⊢
      rcases hl.round hpour with ⟨f, -, -, hcheck⟩ | ⟨s', hcheck, hrun, hs', hcurrent, -, -⟩
      · rw [hcheck] at check
        cases check
      · rw [hcheck] at check
        cases check
        rw [hrun] at finish
        cases finish
        exact ⟨hs', Nat.succ_inj.mpr hcurrent, rfl⟩

/-- A round in order passes or fails safely. -/
theorem Finished.safe {l : LoopState} (h : Finished items total m j l.solver)
    (hpour : Pourable items total m) (hindex : l.startIndex = j) (hitem : l.finishItem = j) :
    l.Passes ∨ l.FailsSafely := by
  rcases h.round hpour with ⟨f, -, -, hcheck⟩ | ⟨s', hcheck, hrun, -, -, hroom, havg⟩
  · exact .inl ⟨l.solver, hindex ▸ hcheck⟩
  · refine .inr ⟨{ l.solver with currentIndex := j }, s', hindex ▸ hcheck, hindex.symm,
      hindex.trans hitem.symm, ?_, hitem ▸ hrun, havg⟩
    rw [hitem, h.places]
    exact hroom

/-- **The loop of the solver ends and is safe**: for every distribution that is not empty,
with frequencies that fit an `int`, and every blow-up rate from one on with a number of places
that fits a `size_t`. -/
theorem solver_safe (p : FreqSort) (blowUpRate : ℚ) (inputDistri : List FreqItem)
    (hne : inputDistri ≠ []) (hfreq : ∀ item ∈ inputDistri, item.2.toNat < 2 ^ 31)
    (hblow : 1 ≤ blowUpRate) (hplaces : places blowUpRate inputDistri < 2 ^ 64) :
    SolverSafe p blowUpRate inputDistri := by
  have hm := length_le_places inputDistri hblow
  have hpos : 0 < inputDistri.length := List.length_pos_iff.mpr hne
  have hpour := pourable_sort p hne hfreq hm
  have hstart : Finished (p.sort inputDistri) (OpSolver.sumFreq inputDistri).toNat
      (places blowUpRate inputDistri) 0
      ((OpSolver.built (places blowUpRate inputDistri) inputDistri).sorted p) :=
    finished_built p (by omega)
  obtain ⟨avg, s, -, hoptimal⟩ := getOptimal_stops p hne hfreq hm
  obtain ⟨s', hrun, -⟩ := Loops.bind_eq_ok.mp hoptimal
  refine ⟨_, init_eq hblow hplaces, ⟨_, hoptimal⟩, exists_passes hrun, ?_⟩
  intro k l hl
  obtain ⟨hfinished, hindex, hitem⟩ := hl.finished hpour hstart rfl rfl
  have hk := hpour.lt_length hfinished.passed
  exact ⟨(p.sort_perm inputDistri).length_eq ▸ hk, hitem, hfinished.safe hpour hindex hitem⟩

/-- Three of these four chunks have less than their share at first. -/
theorem solver_safe_small :
    SolverSafe insertionOrder (23 / 20) [([49], 9), ([49], 1), ([49], 100), ([49], 3)] :=
  solver_safe insertionOrder (23 / 20) _ (List.cons_ne_nil _ _) (by decide) (by norm_num)
    (by decide +kernel)

/-- One chunk in 2^64 places: their number is too large for a `size_t`. -/
theorem places_too_many :
    let inputDistri : List FreqItem := [([49], 1)]
    inputDistri ≠ [] ∧ (∀ item ∈ inputDistri, 0 < item.2.toNat ∧ item.2.toNat < 2 ^ 31) ∧
      (1 : ℚ) ≤ 2 ^ 64 ∧ ¬SolverSafe insertionOrder (2 ^ 64) inputDistri := by
  intro inputDistri
  have hblow : (1 : ℚ) ≤ 2 ^ 64 := by norm_num
  have hplaces : 2 ^ 64 ≤ places (2 ^ 64) inputDistri := by decide +kernel
  refine ⟨List.cons_ne_nil _ _, by decide, hblow, ?_⟩
  rintro ⟨s, hs, -⟩
  rw [init_of_places hblow hplaces] at hs
  cases hs

end Sim

end Debe
