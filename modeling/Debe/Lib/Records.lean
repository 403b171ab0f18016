import Debe.Lib.LittleEndian

/-!
# Length-prefixed records and fixed-size pieces

Two ways of cutting a byte string.  A *framed* string is a run of records, each
its 32-bit little-endian length followed by that many bytes; `readRecords`
walks a given number of them.  A *pieced* string is read a fixed number of
bytes at a time, the last piece being whatever is left; `pieces` does that.
Both inverses below hold for arbitrary contents.
-/

namespace Records

open LittleEndian

/-- One record: its length as four bytes, then its bytes. -/
def frame (r : List UInt8) : List UInt8 :=
  encode 4 r.length ++ r

/-- Records laid end to end. -/
def frames (rs : List (List UInt8)) : List UInt8 :=
  rs.flatMap frame

/-- Walk `n` records from the front of a buffer. -/
def readRecords : Nat → List UInt8 → List (List UInt8)
  | 0, _ => []
  | n+1, buf =>
      let size := decode (buf.take 4)
      let rest := buf.drop 4
      rest.take size :: readRecords n (rest.drop size)

@[simp] theorem length_readRecords (n : Nat) (buf : List UInt8) :
    (readRecords n buf).length = n := by
  induction n generalizing buf with
  | zero => rfl
  | succ n ih => simp [readRecords, ih]

@[simp] theorem length_frame (r : List UInt8) : (frame r).length = 4 + r.length := by
  simp [frame]

@[simp] theorem frames_nil : frames [] = [] := rfl

@[simp] theorem frames_cons (r : List UInt8) (rs : List (List UInt8)) :
    frames (r :: rs) = frame r ++ frames rs := by
  simp [frames]

@[simp] theorem frames_append (rs rs' : List (List UInt8)) :
    frames (rs ++ rs') = frames rs ++ frames rs' := by
  simp [frames]

/-- **Framing round trip.**  Records whose lengths fit the 32-bit prefix are
read back one by one, whatever follows them in the buffer. -/
theorem readRecords_frames_append (rs : List (List UInt8)) (tail : List UInt8)
    (hfit : ∀ r ∈ rs, r.length < 2 ^ 32) :
    readRecords rs.length (frames rs ++ tail) = rs := by
  induction rs with
  | nil => rfl
  | cons r rs ih =>
      have hlen : decode (encode 4 r.length) = r.length :=
        decode_encode_of_lt (hfit r List.mem_cons_self)
      have hrest := ih (fun q hq => hfit q (List.mem_cons_of_mem _ hq))
      simp [readRecords, frame, List.append_assoc, hlen, hrest]

theorem readRecords_frames (rs : List (List UInt8)) (hfit : ∀ r ∈ rs, r.length < 2 ^ 32) :
    readRecords rs.length (frames rs) = rs := by
  simpa using readRecords_frames_append rs [] hfit

/-- Read a string `n` bytes at a time, `fuel` times at most; a final short piece
is delivered as it is, and an exhausted string ends the loop. -/
def piecesLoop (n : Nat) : Nat → List UInt8 → List (List UInt8)
  | 0, _ => []
  | fuel+1, bs => if bs = [] then [] else bs.take n :: piecesLoop n fuel (bs.drop n)

/-- Read a string `n` bytes at a time.  Every read delivers at least one byte, so
as many reads as there are bytes are enough. -/
def pieces (n : Nat) (bs : List UInt8) : List (List UInt8) :=
  piecesLoop n bs.length bs

/-- Reads beyond the last byte deliver nothing. -/
theorem piecesLoop_fuel {n : Nat} (hn : 0 < n) {fuel fuel' : Nat} {bs : List UInt8}
    (h : bs.length ≤ fuel) (h' : bs.length ≤ fuel') :
    piecesLoop n fuel bs = piecesLoop n fuel' bs := by
  induction fuel generalizing fuel' bs with
  | zero =>
      have hnil : bs = [] := List.length_eq_zero_iff.mp (Nat.le_zero.mp h)
      cases fuel' <;> simp [piecesLoop, hnil]
  | succ fuel ih =>
      cases fuel' with
      | zero =>
          have hnil : bs = [] := List.length_eq_zero_iff.mp (Nat.le_zero.mp h')
          simp [piecesLoop, hnil]
      | succ fuel' =>
          have hrest : bs ≠ [] →
              piecesLoop n fuel (bs.drop n) = piecesLoop n fuel' (bs.drop n) := by
            intro hne
            have hpos := List.length_pos_iff.mpr hne
            exact ih (by simp; omega) (by simp; omega)
          by_cases hnil : bs = []
          · simp [piecesLoop, hnil]
          · simp [piecesLoop, hnil, hrest hnil]

theorem pieces_of_ne {n : Nat} (hn : 0 < n) {bs : List UInt8} (hne : bs ≠ []) :
    pieces n bs = bs.take n :: pieces n (bs.drop n) := by
  have hpos := List.length_pos_iff.mpr hne
  obtain ⟨m, hm⟩ : ∃ m, bs.length = m + 1 := ⟨bs.length - 1, by omega⟩
  have hfuel : (bs.drop n).length ≤ m := by simp; omega
  rw [pieces, hm, piecesLoop, if_neg hne, pieces, piecesLoop_fuel hn hfuel le_rfl]

@[simp] theorem pieces_nil (n : Nat) : pieces n [] = [] := rfl

/-- **Induction on pieces.**  What holds of the empty string, and of a string when it
holds of the rest behind the first piece, holds of every string. -/
theorem pieces_induction {n : Nat} (hn : 0 < n) {P : List UInt8 → Prop} (hnil : P [])
    (hstep : ∀ bs, bs ≠ [] → P (bs.drop n) → P bs) (bs : List UInt8) : P bs := by
  obtain ⟨k, hk⟩ : ∃ k, k = bs.length := ⟨_, rfl⟩
  induction k using Nat.strong_induction_on generalizing bs with
  | h k ih =>
      by_cases hne : bs = []
      · exact hne ▸ hnil
      · have hpos := List.length_pos_iff.mpr hne
        exact hstep bs hne (ih _ (by rw [List.length_drop]; omega) _ rfl)

/-- No byte is lost. -/
theorem flatten_pieces {n : Nat} (hn : 0 < n) (bs : List UInt8) : (pieces n bs).flatten = bs := by
  induction bs using pieces_induction hn with
  | hnil => rfl
  | hstep bs hne ih => rw [pieces_of_ne hn hne, List.flatten_cons, ih, List.take_append_drop]

/-- Whole records stay whole if the pieces do. -/
theorem dvd_length_of_mem_pieces {n k : Nat} (hn : 0 < n) (hk : k ∣ n) {bs : List UInt8}
    (hbs : k ∣ bs.length) : ∀ q ∈ pieces n bs, k ∣ q.length := by
  induction bs using pieces_induction hn with
  | hnil => nofun
  | hstep bs hne ih =>
      rw [pieces_of_ne hn hne, List.forall_mem_cons, List.length_take]
      constructor
      · rcases Nat.le_total n bs.length with hle | hle
        · rwa [Nat.min_eq_left hle]
        · rwa [Nat.min_eq_right hle]
      · exact ih (by rw [List.length_drop]; exact Nat.dvd_sub hbs hk)

theorem piecesLoop_append {n : Nat} (hn : 0 < n) (qs : List (List UInt8)) (last : List UInt8)
    (hfull : ∀ q ∈ qs, q.length = n) (hlast : last.length ≤ n) {fuel : Nat}
    (hfuel : (qs.flatten ++ last).length ≤ fuel) :
    piecesLoop n fuel (qs.flatten ++ last) = qs ++ (if last = [] then [] else [last]) := by
  induction qs generalizing fuel with
  | nil =>
      cases fuel with
      | zero =>
          have hnil : last = [] := List.length_eq_zero_iff.mp (by simpa using hfuel)
          simp [piecesLoop, hnil]
      | succ fuel =>
          by_cases hnil : last = []
          · simp [piecesLoop, hnil]
          · have htake : last.take n = last := List.take_of_length_le hlast
            have hdrop : last.drop n = [] := List.drop_of_length_le hlast
            cases fuel <;> simp [piecesLoop, hnil, htake, hdrop]
  | cons q qs ih =>
      have hq : q.length = n := hfull q List.mem_cons_self
      have hne : q ≠ [] := by
        intro h
        rw [h] at hq
        simp at hq
        omega
      cases fuel with
      | zero => simp at hfuel; exact absurd hfuel.1 hne
      | succ fuel =>
          have hshort : (qs.flatten ++ last).length ≤ fuel := by
            simp only [List.flatten_cons, List.append_assoc, List.length_append, hq] at hfuel ⊢
            omega
          have hrest := ih (fun x hx => hfull x (List.mem_cons_of_mem _ hx)) hshort
          have htake : (q ++ (qs.flatten ++ last)).take n = q := by
            rw [List.take_append, ← hq]
            simp
          have hdrop : (q ++ (qs.flatten ++ last)).drop n = qs.flatten ++ last := by
            rw [List.drop_append, ← hq]
            simp
          simp [piecesLoop, List.append_assoc, hne, htake, hdrop, hrest]

/-- **Piece round trip.**  A string made of full pieces and one shorter tail is
cut again at the same places. -/
theorem pieces_append {n : Nat} (hn : 0 < n) (qs : List (List UInt8)) (last : List UInt8)
    (hfull : ∀ q ∈ qs, q.length = n) (hlast : last.length ≤ n) :
    pieces n (qs.flatten ++ last) = qs ++ (if last = [] then [] else [last]) :=
  piecesLoop_append hn qs last hfull hlast le_rfl

end Records
