import Mathlib.Tactic.Common

/-!
# Input file streams

`std::ifstream` as far as programs that only open, measure, read and close use
it: the file it is open on, its position, and the two error bits.  `open` on a
stream that is already open fails and leaves it where it was; a read that meets
the end delivers what there is and sets both bits, and no read delivers anything
while one of them is set.  A file is not written while a stream is open on it.
-/

/-- An input stream over files of `α`. -/
structure InStream (α : Type*) where
  /-- The contents of the file it is open on. -/
  file : Option (List α)
  pos : Nat
  eofbit : Bool
  failbit : Bool
  deriving DecidableEq, Repr

namespace InStream

variable {α : Type*}

/-- A stream that was never opened. -/
def new : InStream α := ⟨none, 0, false, false⟩

/-- A stream at the beginning of a file. -/
def opened (f : List α) : InStream α := ⟨some f, 0, false, false⟩

@[simp] theorem opened_pos (f : List α) : (opened f).pos = 0 := rfl

def isOpen (s : InStream α) : Bool := s.file.isSome

/-- `good()`. -/
def good (s : InStream α) : Bool := !s.eofbit && !s.failbit

/-- `open` on a path that holds `target`, or nothing. -/
def openFile (s : InStream α) (target : Option (List α)) : InStream α :=
  match s.file, target with
  | none, some f => opened f
  | _, _ => { s with failbit := true }

/-- `close`.  The error bits stay as they are until the next `open`. -/
def close (s : InStream α) : InStream α :=
  if s.isOpen then { s with file := none } else { s with failbit := true }

/-- `read` of at most `n` bytes: what is delivered, whose number is `gcount()`. -/
def read (s : InStream α) (n : Nat) : List α × InStream α :=
  match s.file with
  | none => ([], { s with failbit := true })
  | some f =>
      if s.good then
        let data := (f.drop s.pos).take n
        let short := decide (data.length < n)
        (data, { s with pos := s.pos + data.length, eofbit := short, failbit := short })
      else ([], { s with failbit := true })

/-- A read from a good stream. -/
theorem read_good (f : List α) (pos n : Nat) :
    read ⟨some f, pos, false, false⟩ n = ((f.drop pos).take n,
      ⟨some f, pos + ((f.drop pos).take n).length,
        decide (((f.drop pos).take n).length < n), decide (((f.drop pos).take n).length < n)⟩) :=
  rfl

/-- A read of what stands behind the first `a`, in a file that goes on at least so far. -/
theorem read_mid (a b c : List α) :
    read ⟨some (a ++ (b ++ c)), a.length, false, false⟩ b.length =
      (b, ⟨some (a ++ (b ++ c)), a.length + b.length, false, false⟩) := by
  have hdata : ((a ++ (b ++ c)).drop a.length).take b.length = b := by
    rw [List.drop_left, List.take_left]
  rw [read_good, hdata, decide_eq_false (Nat.lt_irrefl _)]

/-- A read at the end of the file delivers nothing and sets both bits. -/
theorem read_end (f : List α) {n : Nat} (hn : 0 < n) :
    read ⟨some f, f.length, false, false⟩ n = ([], ⟨some f, f.length, true, true⟩) := by
  rw [read_good, List.drop_length, List.take_nil, List.length_nil, Nat.add_zero,
    decide_eq_true hn]

/-- `tellg()`: the position, or `-1` and `failbit` on a stream that is not good. -/
def tellg (s : InStream α) : Int × InStream α :=
  if s.good then (s.pos, s) else (-1, { s with failbit := true })

/-- `seekg` to a position, after a failure without effect.  `eofbit` is cleared first. -/
def seekg (s : InStream α) (pos : Nat) : InStream α :=
  if s.failbit then { s with eofbit := false } else { s with pos := pos, eofbit := false }

/-- `clear()`. -/
def clear (s : InStream α) : InStream α := { s with eofbit := false, failbit := false }

/-- The position behind the last byte. -/
def endPos (s : InStream α) : Nat := (s.file.getD []).length

@[simp] theorem openFile_some_of_closed {s : InStream α} (h : s.file = none) (f : List α) :
    s.openFile (some f) = opened f := by
  simp [openFile, h]

@[simp] theorem openFile_none (s : InStream α) :
    s.openFile none = { s with failbit := true } := by
  cases h : s.file <;> simp [openFile, h]

@[simp] theorem close_file (s : InStream α) : s.close.file = none := by
  cases h : s.file <;> simp [close, isOpen, h]

/-- A stream on `f`, somewhere in it, whose error bits are set only at the end. -/
structure On (f : List α) (s : InStream α) : Prop where
  file : s.file = some f
  pos_le : s.pos ≤ f.length
  bits : s.good = false → s.pos = f.length

theorem on_opened (f : List α) : On f (opened f) where
  file := rfl
  pos_le := Nat.zero_le _
  bits := nofun

/-- Whatever its error bits, a stream on a file delivers what stands at its
position, moves behind it, and stays on the file. -/
theorem On.read {f : List α} {s : InStream α} (h : On f s) (n : Nat) :
    (s.read n).1 = (f.drop s.pos).take n ∧
      (s.read n).2.pos = s.pos + ((f.drop s.pos).take n).length ∧ On f (s.read n).2 := by
  cases hgood : s.good with
  | true =>
      have hread : s.read n = ((f.drop s.pos).take n,
          { s with
            pos := s.pos + ((f.drop s.pos).take n).length
            eofbit := decide (((f.drop s.pos).take n).length < n)
            failbit := decide (((f.drop s.pos).take n).length < n) }) := by
        simp only [InStream.read, h.file, hgood, if_true]
      have hle := h.pos_le
      rw [hread]
      refine ⟨rfl, rfl, h.file, ?_, ?_⟩
      · simp only [List.length_take, List.length_drop]
        omega
      · intro hbits
        have hshort : ((f.drop s.pos).take n).length < n := by simpa [good] using hbits
        simp only [List.length_take, List.length_drop] at hshort ⊢
        omega
  | false =>
      have hread : s.read n = ([], { s with failbit := true }) := by
        simp [InStream.read, h.file, hgood]
      have hend : (f.drop s.pos).take n = [] := by simp [h.bits hgood]
      rw [hread, hend]
      exact ⟨rfl, rfl, h.file, h.pos_le, fun _ => h.bits hgood⟩

/-- A read that delivers nothing, or after which `eof()` holds, has come to the end
of the file. -/
theorem On.pos_of_stop {f : List α} {s : InStream α} (h : On f s) {n : Nat} (hn : 0 < n)
    (hstop : (s.read n).1 = [] ∨ (s.read n).2.eofbit = true) :
    (s.read n).2.pos = f.length := by
  obtain ⟨hdata, hpos, hon⟩ := h.read n
  rcases hstop with hnone | heof
  · rw [hdata] at hnone
    have hle := h.pos_le
    have hlen := congrArg List.length hnone
    simp only [List.length_take, List.length_drop, List.length_nil] at hlen
    rw [hpos, hnone, List.length_nil]
    omega
  · exact hon.bits (by simp [good, heof])

end InStream
