import Debe.Lib.Records
import Debe.Lib.Buffers

/-!
# Send buffers filled with framed records

A send buffer has a header that counts its records and its bytes, both in 32 bits, and a
record is copied to where the byte counter points.  `Counts` says what the header and the size
of the buffer are whatever was copied.  `Written` says that the front of the buffer is the
records, which is so as long as their bytes are at most `2 ^ 32`, and `Holds` that the header
counts these bytes too, which leaves out the case of exactly `2 ^ 32`.
-/

/-- A buffer behind a header. -/
structure FrameBuffer where
  currentItemNum : UInt32
  dataSize : UInt32
  dataBuffer : List UInt8
  deriving DecidableEq, Repr

namespace FrameBuffer

open Records LittleEndian

/-- Copy a record to the end, its size in front.  There is no result when a copy would leave
the buffer. -/
def append (b : FrameBuffer) (r : List UInt8) : Option FrameBuffer := do
  let dataBuffer ← Buffer.write b.dataBuffer b.dataSize.toNat (encode 4 r.length)
  let dataSize := b.dataSize + 4
  let dataBuffer ← Buffer.write dataBuffer dataSize.toNat r
  return {
    currentItemNum := b.currentItemNum + 1
    dataSize := dataSize + UInt32.ofNat r.length
    dataBuffer := dataBuffer }

/-- The bytes that the header counts. -/
def payload (b : FrameBuffer) : List UInt8 := b.dataBuffer.take b.dataSize.toNat

/-- Start anew.  The bytes stay in the buffer. -/
def reset (b : FrameBuffer) : FrameBuffer := { b with currentItemNum := 0, dataSize := 0 }

variable {size n : Nat} {rs rest : List (List UInt8)} {r : List UInt8} {b : FrameBuffer}

/-- A buffer of the given size whose header counts the records, modulo `2 ^ 32`. -/
structure Counts (size : Nat) (rs : List (List UInt8)) (b : FrameBuffer) : Prop where
  currentItemNum : b.currentItemNum = UInt32.ofNat rs.length
  dataSize : b.dataSize = UInt32.ofNat (frames rs).length
  length : b.dataBuffer.length = size

/-- A buffer that begins with the records. -/
structure Written (size : Nat) (rs : List (List UInt8)) (b : FrameBuffer) : Prop
    extends Counts size rs b where
  le : (frames rs).length ≤ 2 ^ 32
  begins : frames rs <+: b.dataBuffer

/-- A buffer that begins with the records, whose bytes the header counts. -/
structure Holds (size : Nat) (rs : List (List UInt8)) (b : FrameBuffer) : Prop
    extends Counts size rs b where
  fits : (frames rs).length < 2 ^ 32
  begins : frames rs <+: b.dataBuffer

theorem holds_reset (hsize : b.dataBuffer.length = size) : Holds size [] b.reset :=
  ⟨⟨rfl, rfl, hsize⟩, by decide, List.nil_prefix⟩

theorem Counts.toNat_dataSize_le (h : Counts size rs b) :
    b.dataSize.toNat ≤ (frames rs).length := by
  rw [h.dataSize, UInt32.toNat_ofNat']
  exact Nat.mod_le _ _

/-- A record takes its length and four bytes. -/
theorem length_frames_le {most : Nat} (hrs : ∀ r ∈ rs, r.length ≤ most) :
    (frames rs).length ≤ rs.length * (4 + most) := by
  induction rs with
  | nil => simp
  | cons r rs ih =>
      have hr := hrs r List.mem_cons_self
      have hrest := ih fun q hq => hrs q (List.mem_cons_of_mem _ hq)
      rw [frames_cons, List.length_append, length_frame, List.length_cons, Nat.succ_mul]
      omega

theorem four_mul_length_le (rs : List (List UInt8)) : 4 * rs.length ≤ (frames rs).length := by
  induction rs with
  | nil => simp
  | cons r rs ih =>
      rw [frames_cons, List.length_append, length_frame, List.length_cons]
      omega

theorem frames_concat (rs : List (List UInt8)) (r : List UInt8) :
    frames (rs ++ [r]) = frames rs ++ frame r := by
  rw [frames_append, frames_cons, frames_nil, List.append_nil]

theorem Holds.written (h : Holds size rs b) : Written size rs b :=
  ⟨h.toCounts, h.fits.le, h.begins⟩

theorem Written.holds (h : Written size rs b) (hlt : (frames rs).length < 2 ^ 32) :
    Holds size rs b :=
  ⟨h.toCounts, hlt, h.begins⟩

theorem written_reset (hsize : b.dataBuffer.length = size) : Written size [] b.reset :=
  (holds_reset hsize).written

theorem Written.toNat_currentItemNum (h : Written size rs b) :
    b.currentItemNum.toNat = rs.length := by
  have hle := four_mul_length_le rs
  have hlt : rs.length < 2 ^ 32 := by
    have hwritten := h.le
    omega
  rw [h.currentItemNum, UInt32.toNat_ofNat_of_lt' hlt]

theorem Holds.toNat_currentItemNum (h : Holds size rs b) : b.currentItemNum.toNat = rs.length :=
  h.written.toNat_currentItemNum

theorem Holds.toNat_dataSize (h : Holds size rs b) : b.dataSize.toNat = (frames rs).length := by
  rw [h.dataSize, UInt32.toNat_ofNat_of_lt' h.fits]

theorem Holds.payload (h : Holds size rs b) : b.payload = frames rs := by
  rw [FrameBuffer.payload, h.toNat_dataSize]
  exact (List.prefix_iff_eq_take.mp h.begins).symm

/-- What a record does to a buffer with room for it. -/
theorem append_eq
    (hsize : b.dataSize.toNat + 4 ≤ b.dataBuffer.length)
    (hdata : (b.dataSize + 4).toNat + r.length ≤ b.dataBuffer.length) :
    b.append r = some {
      currentItemNum := b.currentItemNum + 1
      dataSize := b.dataSize + 4 + UInt32.ofNat r.length
      dataBuffer := Buffer.overwrite
        (Buffer.overwrite b.dataBuffer b.dataSize.toNat (encode 4 r.length))
        (b.dataSize + 4).toNat r } := by
  have hfirst : b.dataSize.toNat + (encode 4 r.length).length ≤ b.dataBuffer.length := by
    rw [length_encode]
    exact hsize
  have hsecond : (b.dataSize + 4).toNat + r.length ≤
      (Buffer.overwrite b.dataBuffer b.dataSize.toNat (encode 4 r.length)).length := by
    rw [Buffer.length_overwrite hfirst]
    exact hdata
  simp only [append, Buffer.write, if_pos hfirst, if_pos hsecond, bind, Option.bind_some, pure]

theorem length_overwrite_twice (hsize : b.dataSize.toNat + 4 ≤ b.dataBuffer.length)
    (hdata : (b.dataSize + 4).toNat + r.length ≤ b.dataBuffer.length) :
    (Buffer.overwrite (Buffer.overwrite b.dataBuffer b.dataSize.toNat (encode 4 r.length))
      (b.dataSize + 4).toNat r).length = b.dataBuffer.length := by
  have hfirst : b.dataSize.toNat + (encode 4 r.length).length ≤ b.dataBuffer.length := by
    rw [length_encode]
    exact hsize
  have hlen := Buffer.length_overwrite hfirst
  rw [Buffer.length_overwrite (by rw [hlen]; exact hdata), hlen]

/-- The header counts the new record. -/
theorem Counts.header (h : Counts size rs b) {dataBuffer : List UInt8}
    (hlen : dataBuffer.length = b.dataBuffer.length) :
    Counts size (rs ++ [r]) {
      currentItemNum := b.currentItemNum + 1
      dataSize := b.dataSize + 4 + UInt32.ofNat r.length
      dataBuffer := dataBuffer } where
  currentItemNum := by
    rw [h.currentItemNum, List.length_append, UInt32.ofNat_add]
    rfl
  dataSize := by
    rw [h.dataSize, frames_concat, List.length_append, length_frame, UInt32.ofNat_add,
      UInt32.ofNat_add, UInt32.add_assoc]
    rfl
  length := hlen.trans h.length

/-- **Room.**  In a buffer with room for one more record of the largest size, no copy leaves it,
whether or not its bytes can be counted. -/
theorem Counts.append {most : Nat} (h : Counts size rs b) (hrs : ∀ q ∈ rs ++ [r], q.length ≤ most)
    (hroom : (rs.length + 1) * (4 + most) ≤ size) :
    ∃ b', b.append r = some b' ∧ Counts size (rs ++ [r]) b' := by
  have hr : r.length ≤ most := hrs r (by simp)
  have hframes := length_frames_le fun q hq => hrs q (List.mem_append_left _ hq)
  have hle := h.toNat_dataSize_le
  have hnext : (b.dataSize + 4).toNat ≤ b.dataSize.toNat + 4 := by
    rw [UInt32.toNat_add]
    exact Nat.mod_le _ _
  rw [Nat.succ_mul, ← h.length] at hroom
  have hsize : b.dataSize.toNat + 4 ≤ b.dataBuffer.length := by omega
  have hdata : (b.dataSize + 4).toNat + r.length ≤ b.dataBuffer.length := by omega
  exact ⟨_, append_eq hsize hdata, h.header (length_overwrite_twice hsize hdata)⟩

/-- A frame that is copied to the end, with the header counting it. -/
theorem Holds.extend (h : Holds size rs b) (hfits : (frames (rs ++ [r])).length < 2 ^ 32)
    (hroom : (frames (rs ++ [r])).length ≤ size) :
    Holds size (rs ++ [r]) {
      currentItemNum := b.currentItemNum + 1
      dataSize := b.dataSize + 4 + UInt32.ofNat r.length
      dataBuffer := Buffer.overwrite b.dataBuffer b.dataSize.toNat (frame r) } := by
  have hfront : b.dataBuffer.take (frames rs).length = frames rs :=
    (List.prefix_iff_eq_take.mp h.begins).symm
  have hlen : b.dataSize.toNat + (frame r).length ≤ b.dataBuffer.length := by
    rw [frames_concat, List.length_append] at hroom
    rw [h.toNat_dataSize, h.length]
    exact hroom
  refine ⟨h.toCounts.header (Buffer.length_overwrite hlen), hfits, ?_⟩
  dsimp only
  rw [h.toNat_dataSize, frames_concat, Buffer.overwrite, hfront]
  exact List.prefix_append _ _

/-- **Content.**  Up to `2 ^ 32` bytes the record comes behind the others. -/
theorem Written.append (h : Written size rs b) (hle : (frames (rs ++ [r])).length ≤ 2 ^ 32)
    (hroom : (frames (rs ++ [r])).length ≤ size) :
    ∃ b', b.append r = some b' ∧ Written size (rs ++ [r]) b' := by
  have hlen : (frames (rs ++ [r])).length = (frames rs).length + (4 + r.length) := by
    rw [frames_concat, List.length_append, length_frame]
  have hlt : (frames rs).length < 2 ^ 32 := by omega
  have hheld := h.holds hlt
  have hoff := hheld.toNat_dataSize
  have hlength := h.length
  have hsum : (b.dataSize + 4).toNat = (b.dataSize.toNat + 4) % 2 ^ 32 := UInt32.toNat_add _ _
  have hsize : b.dataSize.toNat + 4 ≤ b.dataBuffer.length := by omega
  have hdata : (b.dataSize + 4).toNat + r.length ≤ b.dataBuffer.length := by
    have hmod := Nat.mod_le (b.dataSize.toNat + 4) (2 ^ 32)
    omega
  have hover : Buffer.overwrite
      (Buffer.overwrite b.dataBuffer b.dataSize.toNat (encode 4 r.length))
      (b.dataSize + 4).toNat r = Buffer.overwrite b.dataBuffer b.dataSize.toNat (frame r) := by
    by_cases hwrap : b.dataSize.toNat + 4 < 2 ^ 32
    · have hnext : (b.dataSize + 4).toNat =
          b.dataSize.toNat + (encode 4 r.length).length := by
        rw [hsum, Nat.mod_eq_of_lt hwrap, length_encode]
      rw [hnext, Buffer.overwrite_overwrite (by omega), frame]
    · -- the size prefix takes the last four bytes: the record is empty
      have hnil : r = [] := List.length_eq_zero_iff.mp (by omega)
      rw [hnil, Buffer.overwrite_nil, frame, List.append_nil]
  have hfront : b.dataBuffer.take (frames rs).length = frames rs :=
    (List.prefix_iff_eq_take.mp h.begins).symm
  refine ⟨_, append_eq hsize hdata,
    ⟨h.toCounts.header (length_overwrite_twice hsize hdata), hle, ?_⟩⟩
  dsimp only
  rw [hover, hoff, frames_concat, Buffer.overwrite, hfront]
  exact List.prefix_append _ _

/-- As long as the bytes can be counted, they are. -/
theorem Holds.append (h : Holds size rs b) (hfits : (frames (rs ++ [r])).length < 2 ^ 32)
    (hroom : (frames (rs ++ [r])).length ≤ size) :
    ∃ b', b.append r = some b' ∧ Holds size (rs ++ [r]) b' := by
  obtain ⟨b', hrun, hwritten⟩ := h.written.append hfits.le hroom
  exact ⟨b', hrun, hwritten.holds hfits⟩

/-! ## Batches -/

/-- The bytes of every batch of `n` records can be counted. -/
def BatchesFit (n : Nat) (rs : List (List UInt8)) : Prop :=
  ∀ k, (frames ((rs.drop (k * n)).take n)).length < 2 ^ 32

/-- Records of at most this size make batches of at most as many frames of that size. -/
theorem length_frames_batch_le {most : Nat} (hrs : ∀ r ∈ rs, r.length ≤ most) (k : Nat) :
    (frames ((rs.drop (k * n)).take n)).length ≤ n * (4 + most) := by
  have hbatch : ∀ r ∈ (rs.drop (k * n)).take n, r.length ≤ most := fun r hr =>
    hrs r (List.mem_of_mem_drop (List.mem_of_mem_take hr))
  exact (length_frames_le hbatch).trans (Nat.mul_le_mul_right _ (List.length_take_le _ _))

/-- What was seen is some full groups and fewer than `n` records behind them. -/
structure Filling {α : Type*} (n : Nat) (seen : List α) (groups : List (List α))
    (rest : List α) : Prop where
  eq : groups.flatten ++ rest = seen
  full : ∀ g ∈ groups, g.length = n
  lt : rest.length < n

variable {seen : List (List UInt8)} {groups : List (List (List UInt8))}

theorem filling_nil {α : Type*} (hn : 0 < n) : Filling n ([] : List α) [] [] :=
  ⟨rfl, by simp, hn⟩

theorem length_flatten_full {α : Type*} {groups : List (List α)}
    (hfull : ∀ g ∈ groups, g.length = n) :
    groups.flatten.length = groups.length * n := by
  induction groups with
  | nil => simp
  | cons g groups ih =>
      have hg := hfull g List.mem_cons_self
      have hrest := ih fun x hx => hfull x (List.mem_cons_of_mem _ hx)
      rw [List.flatten_cons, List.length_append, hrest, hg, List.length_cons, Nat.succ_mul,
        Nat.add_comm]

theorem length_frames_mono {rs rs' : List (List UInt8)} (h : rs <+: rs') :
    (frames rs).length ≤ (frames rs').length := by
  obtain ⟨post, rfl⟩ := h
  rw [frames_append, List.length_append]
  exact Nat.le_add_right _ _

/-- The next record adds to the bytes of its batch. -/
theorem Filling.frames_le {post : List (List UInt8)} {most : Nat}
    (h : Filling n seen groups rest)
    (hbatches : ∀ k, (frames (((seen ++ r :: post).drop (k * n)).take n)).length ≤ most) :
    (frames (rest ++ [r])).length ≤ most := by
  have hbatch := hbatches groups.length
  rw [← h.eq, List.append_assoc, ← length_flatten_full h.full, List.drop_left] at hbatch
  refine Nat.le_trans (length_frames_mono ?_) hbatch
  have hbegins : rest ++ [r] <+: rest ++ r :: post := ⟨post, by simp⟩
  have hlen : (rest ++ [r]).length ≤ n := by
    rw [List.length_append]
    exact h.lt
  rw [List.prefix_iff_eq_take.mp hbegins]
  exact List.take_prefix_take_left hlen

/-- What waits is the last batch. -/
theorem Filling.rest_le {most : Nat} (h : Filling n seen groups rest)
    (hbatches : ∀ k, (frames ((seen.drop (k * n)).take n)).length ≤ most) :
    (frames rest).length ≤ most := by
  have hbatch := hbatches groups.length
  rwa [← h.eq, ← length_flatten_full h.full, List.drop_left,
    List.take_of_length_le h.lt.le] at hbatch

/-- The next record can be counted with those that wait. -/
theorem Filling.fits {post : List (List UInt8)} (h : Filling n seen groups rest)
    (hfit : BatchesFit n (seen ++ r :: post)) : (frames (rest ++ [r])).length < 2 ^ 32 :=
  Nat.lt_of_le_pred (Nat.two_pow_pos 32) (h.frames_le fun k => Nat.le_pred_of_lt (hfit k))

section Groups

variable {α : Type*} {seen : List α} {groups : List (List α)} {rest : List α} {r : α}

/-- One more record, which does not complete a group. -/
theorem Filling.grow (h : Filling n seen groups rest) (hlt : rest.length + 1 < n) :
    Filling n (seen ++ [r]) groups (rest ++ [r]) where
  eq := by rw [← h.eq, List.append_assoc]
  full := h.full
  lt := by rwa [List.length_append]

/-- One more record, which completes a group. -/
theorem Filling.close (h : Filling n seen groups rest) (heq : rest.length + 1 = n) :
    Filling n (seen ++ [r]) (groups ++ [rest ++ [r]]) [] where
  eq := by simp [← h.eq]
  full := by
    intro g hg
    rcases List.mem_append.mp hg with hg | hg
    · exact h.full g hg
    · rw [List.mem_singleton.mp hg, List.length_append]
      exact heq
  lt := by
    rw [← heq]
    exact Nat.succ_pos _

end Groups

/-- The counter is a multiple of `n` exactly when the group is complete. -/
theorem Written.full_iff (h : Written size rest b) (hpos : rest ≠ []) (hle : rest.length ≤ n) :
    b.currentItemNum.toNat % n = 0 ↔ rest.length = n := by
  have hlen := List.length_pos_of_ne_nil hpos
  rw [h.toNat_currentItemNum]
  constructor
  · intro hmod
    exact Nat.le_antisymm hle (Nat.le_of_dvd hlen (Nat.dvd_of_mod_eq_zero hmod))
  · intro heq
    rw [heq, Nat.mod_self]

/-- A counter that has not come to `n`, nor to `2 ^ 32`, is not a multiple of `n`. -/
theorem Counts.lt_of_not_full (h : Counts size rest b) (hle : rest.length ≤ n)
    (h32 : rest.length ≤ 2 ^ 32) (hnot : b.currentItemNum.toNat % n ≠ 0) :
    rest.length < n ∧ rest.length < 2 ^ 32 := by
  rw [h.currentItemNum, UInt32.toNat_ofNat'] at hnot
  refine ⟨Nat.lt_of_le_of_ne hle ?_, Nat.lt_of_le_of_ne h32 ?_⟩
  · intro heq
    rcases Nat.lt_or_ge n (2 ^ 32) with hlt | hge
    · rw [heq, Nat.mod_eq_of_lt hlt, Nat.mod_self] at hnot
      exact hnot rfl
    · rw [Nat.le_antisymm h32 (heq ▸ hge), Nat.mod_self, Nat.zero_mod] at hnot
      exact hnot rfl
  · intro heq
    rw [heq, Nat.mod_self, Nat.zero_mod] at hnot
    exact hnot rfl

end FrameBuffer
