import Debe.Lz4
import Debe.Lib.CommonPrefix

/-!
# The LZ4 block compressor

`LZ4_compress_fast` as the enclave calls it: a fresh, zeroed stream, no
dictionary, and a table of `byU16` or `byU32` indices.  Positions are indices
into the source, so `base` is zero and the end of the chunk is its length.

The encoder walks the source with two cursors.  `anchor` is the first byte no
sequence covers yet; from there it looks for a position whose four bytes were
seen before, stepping faster the longer it finds nothing, extends the match
backwards and forwards, and writes the literals since `anchor` and the match as
one sequence.  When the four bytes right after a match were seen before too, the
next sequence starts there without a search.

A result of zero is `none`.  Where the source reads a word, the model decodes
the bytes at that position; the byte copies write only what the result keeps.
-/

namespace Debe

open LittleEndian CommonPrefix

/-- `tableType_t`; `byPtr` belongs to 32-bit machines. -/
inductive TableType
  | byU32
  | byU16
  deriving DecidableEq, Repr

/-- The hash table, read and written one bucket at a time. -/
abbrev HashTable := Nat → Nat

/-- `LZ4_read16`, `LZ4_read32` and `LZ4_read_ARCH`: the word of `w` bytes at `p`. -/
def readWord (w : Nat) (src : Bytes) (p : Nat) : Nat :=
  decode ((src.drop p).take w)

/-- `LZ4_hash4`. -/
def hash4 (sequence : Nat) : TableType → Nat
  | .byU16 => sequence * 2654435761 % 2 ^ 32 >>> (4 * 8 - 13)
  | .byU32 => sequence * 2654435761 % 2 ^ 32 >>> (4 * 8 - 12)

/-- `LZ4_hash5`. -/
def hash5 (sequence : Nat) (tableType : TableType) : Nat :=
  let hashLog := if tableType = .byU16 then 13 else 12
  (sequence <<< 24) % 2 ^ 64 * 889523592379 % 2 ^ 64 >>> (64 - hashLog)

/-- `LZ4_hashPosition`. -/
def hashPosition (src : Bytes) (tableType : TableType) (p : Nat) : Nat :=
  if tableType ≠ .byU16 then hash5 (readWord 8 src p) tableType
  else hash4 (readWord 4 src p) tableType

/-- `LZ4_putIndexOnHash`: the index is cut to the width of the table's entries. -/
def putIndexOnHash (idx h : Nat) (table : HashTable) : TableType → HashTable
  | .byU16 => Function.update table h (idx % 2 ^ 16)
  | .byU32 => Function.update table h (idx % 2 ^ 32)

/-- `LZ4_putPosition`. -/
def putPosition (src : Bytes) (tableType : TableType) (p : Nat) (table : HashTable) :
    HashTable :=
  putIndexOnHash p (hashPosition src tableType p) table tableType

/-- `LZ4_NbCommonBytes`. -/
def nbCommonBytes (val : Nat) : Nat :=
  ctz 64 val / 8

/-- A closing line of `LZ4_count`: step over the next `w` bytes when they are equal. -/
def countWord (src : Bytes) (pInLimit w : Nat) (cur : Nat × Nat) : Nat × Nat :=
  if cur.1 + (w - 1) < pInLimit ∧ readWord w src cur.2 = readWord w src cur.1 then
    (cur.1 + w, cur.2 + w)
  else cur

/-- The end of `LZ4_count`: four bytes, two bytes, one byte. -/
def countTail (src : Bytes) (pInLimit pIn pMatch : Nat) : Nat :=
  (countWord src pInLimit 1 (countWord src pInLimit 2
    (countWord src pInLimit 4 (pIn, pMatch)))).1

/-- The loop of `LZ4_count`, its unrolled first turn included; returns the final `pIn`. -/
def countLoop (src : Bytes) (pInLimit pIn pMatch : Nat) : Nat :=
  if pIn + 7 < pInLimit then
    let diff := readWord 8 src pMatch ^^^ readWord 8 src pIn
    if diff = 0 then countLoop src pInLimit (pIn + 8) (pMatch + 8)
    else pIn + nbCommonBytes diff
  else countTail src pInLimit pIn pMatch
termination_by pInLimit - pIn

/-- `LZ4_count`. -/
def lz4Count (src : Bytes) (pIn pMatch pInLimit : Nat) : Nat :=
  countLoop src pInLimit pIn pMatch - pIn

/-- `mflimitPlusOne`: no match starts here or later. -/
def mflimitPlusOne (src : Bytes) : Nat := src.length - 12 + 1

/-- `matchlimit`: no match reaches beyond. -/
def matchlimit (src : Bytes) : Nat := src.length - 5

/-- A speed setting, at least one as the assertion has it. -/
structure Acceleration where
  val : Nat
  one_le : 1 ≤ val

/-- The range `LZ4_compress_fast_extState` forces its argument into. -/
def clampAcceleration (acceleration : Int) : Int :=
  let acceleration := if acceleration < 1 then 1 else acceleration
  if 65537 < acceleration then 65537 else acceleration

/-- The acceleration in force for an argument. -/
def Acceleration.ofArgument (acceleration : Int) : Acceleration where
  val := (clampAcceleration acceleration).toNat
  one_le := by
    unfold clampAcceleration
    dsimp only
    split <;> split <;> omega

/-- The variables of the match search; `searchMatchNb` never falls below one
`LZ4_skipTrigger`, so the step stays positive. -/
structure Search where
  forwardIp : Nat
  step : Nat
  searchMatchNb : Nat
  step_pos : 0 < step
  trigger_le : 64 ≤ searchMatchNb

/-- The search as it starts at `ip`. -/
def Search.start (acceleration : Acceleration) (ip : Nat) : Search where
  forwardIp := ip
  step := 1
  searchMatchNb := acceleration.val <<< 6
  step_pos := Nat.one_pos
  trigger_le := by
    have := acceleration.one_le
    rw [Nat.shiftLeft_eq]
    omega

/-- The search after one more position. -/
def Search.next (s : Search) : Search where
  forwardIp := s.forwardIp + s.step
  step := s.searchMatchNb >>> 6
  searchMatchNb := s.searchMatchNb + 1
  step_pos := by
    have := s.trigger_le
    rw [Nat.shiftRight_eq_div_pow]
    omega
  trigger_le := by
    have := s.trigger_le
    omega

/-- The distance test; `byU16` indices are never too far apart. -/
def tooFar (matchIndex current : Nat) : TableType → Bool
  | .byU16 => false
  | .byU32 => decide (matchIndex + 65535 < current)

/-- The `do` loop that finds a match: the position, the match and the table, or
`none` for `goto _last_literals`.  `forwardH` is always the hash at `forwardIp`. -/
def findMatch (src : Bytes) (tableType : TableType) (table : HashTable) (s : Search) :
    Option (Nat × Nat × HashTable) :=
  let h := hashPosition src tableType s.forwardIp
  let current := s.forwardIp
  let matchIndex := table h
  if mflimitPlusOne src < s.next.forwardIp then none
  else
    let table := putIndexOnHash current h table tableType
    if tooFar matchIndex current tableType = false ∧
        readWord 4 src matchIndex = readWord 4 src current then
      some (current, matchIndex, table)
    else findMatch src tableType table s.next
termination_by mflimitPlusOne src + 1 - s.forwardIp
decreasing_by
  have := s.step_pos
  simp only [Search.next] at *
  omega

/-- The `while` loop that catches up: a match is extended backwards as long as
the bytes before it are equal too. -/
def catchUp (src : Bytes) (anchor : Nat) : Nat → Nat → Nat × Nat
  | ip+1, m+1 =>
      if anchor < ip + 1 ∧ src[ip]? = src[m]? then catchUp src anchor ip m else (ip + 1, m + 1)
  | ip, m => (ip, m)

/-- The `for` loop that writes a long literal length. -/
def runLengthBytes (len : Nat) : Bytes :=
  if 255 ≤ len then 255 :: runLengthBytes (len - 255) else [UInt8.ofNat len]
termination_by len

/-- The `while` loop that writes a long match length, four bytes at a time. -/
def matchLengthBytes (matchCode : Nat) : Bytes :=
  if 4 * 255 ≤ matchCode then
    255 :: 255 :: 255 :: 255 :: matchLengthBytes (matchCode - 4 * 255)
  else List.replicate (matchCode / 255) 255 ++ [UInt8.ofNat (matchCode % 255)]
termination_by matchCode

/-- A token, the rest of the literal length and the literals.  The low half of
the token, `mlToken`, is added once the match length is known. -/
def literalBytes (mlToken : Nat) (literals : Bytes) : Bytes :=
  let litLength := literals.length
  if 15 ≤ litLength then
    UInt8.ofNat (15 * 16 + mlToken) :: (runLengthBytes (litLength - 15) ++ literals)
  else UInt8.ofNat (litLength * 16 + mlToken) :: literals

/-- The sequence of `literals` and a match of `matchCode + 4` bytes, `offset` back. -/
def sequenceBytes (literals : Bytes) (offset matchCode : Nat) : Bytes :=
  if 15 ≤ matchCode then
    literalBytes 15 literals ++ encode 2 offset ++ matchLengthBytes (matchCode - 15)
  else literalBytes matchCode literals ++ encode 2 offset

/-- `limitedOutput_directive`: `notLimited`, or `limitedOutput` with the room there is. -/
inductive OutputLimit
  | notLimited
  | limitedOutput (maxOutputSize : Nat)
  deriving DecidableEq, Repr

/-- The overflow test: would `size` bytes reach past `olimit`? -/
def OutputLimit.exceeded (size : Nat) : OutputLimit → Bool
  | .notLimited => false
  | .limitedOutput maxOutputSize => decide (maxOutputSize < size)

/-- What the encoder carries from one sequence to the next.  `next` is the match
already known at `anchor`, for which the source jumps to `_next_match`; without
one it searches from `anchor + 1`. -/
structure Encoder where
  hashTable : HashTable
  op : Bytes
  anchor : Nat
  next : Option Nat

/-- How a turn of the main loop ends. -/
inductive Turn
  | full
  | lastLiterals (op : Bytes) (anchor : Nat)
  | again (st : Encoder)

/-- From `_next_match` to the end of the turn: the offset, the match length, and
the test whether the bytes after the match were seen before. -/
def encodeMatch (src : Bytes) (tableType : TableType) (limit : OutputLimit)
    (table : HashTable) (op literals : Bytes) (ip m : Nat) : Turn :=
  let matchCode := lz4Count src (ip + 4) (m + 4) (matchlimit src)
  let written := op.length + (literalBytes 0 literals).length + 2
  if limit.exceeded (written + (1 + 5) + (matchCode + 240) / 255) then .full
  else
    let op := op ++ sequenceBytes literals (ip - m) matchCode
    let ip := ip + (matchCode + 4)
    if mflimitPlusOne src ≤ ip then .lastLiterals op ip
    else
      let table := putPosition src tableType (ip - 2) table
      let h := hashPosition src tableType ip
      let matchIndex := table h
      let table := putIndexOnHash ip h table tableType
      let next :=
        if tooFar matchIndex ip tableType = false ∧
            readWord 4 src matchIndex = readWord 4 src ip then some matchIndex
        else none
      .again { hashTable := table, op := op, anchor := ip, next := next }

/-- One turn of the main loop. -/
def encodeTurn (src : Bytes) (tableType : TableType) (limit : OutputLimit)
    (acceleration : Acceleration) (st : Encoder) : Turn :=
  match st.next with
  | some m => encodeMatch src tableType limit st.hashTable st.op [] st.anchor m
  | none =>
      match findMatch src tableType st.hashTable (.start acceleration (st.anchor + 1)) with
      | none => .lastLiterals st.op st.anchor
      | some (ip, m, table) =>
          let caught := catchUp src st.anchor ip m
          let literals := (src.take caught.1).drop st.anchor
          let litLength := caught.1 - st.anchor
          if limit.exceeded (st.op.length + 1 + litLength + (2 + 1 + 5) + litLength / 255) then
            .full
          else
            encodeMatch src tableType limit table st.op literals caught.1 caught.2

/-- `_last_literals`. -/
def lastLiterals (src : Bytes) (limit : OutputLimit) (op : Bytes) (anchor : Nat) :
    Option Bytes :=
  let lastRun := src.length - anchor
  if limit.exceeded (op.length + lastRun + 1 + (lastRun + 255 - 15) / 255) then none
  else some (op ++ literalBytes 0 (src.drop anchor))

/-! ## The main loop -/

theorem le_findMatch {src : Bytes} {tableType : TableType} {table table' : HashTable}
    {s : Search} {ip m : Nat}
    (h : findMatch src tableType table s = some (ip, m, table')) : s.forwardIp ≤ ip := by
  fun_induction findMatch src tableType table s with
  | case1 => cases h
  | case2 =>
      simp only [Option.some.injEq, Prod.mk.injEq] at h
      exact h.1.le
  | case3 table s hash current matchIndex hnext table hmiss ih =>
      have hstep : s.forwardIp ≤ s.next.forwardIp := Nat.le_add_right _ _
      exact hstep.trans (ih h)

theorem le_catchUp (src : Bytes) {anchor ip : Nat} (m : Nat) (h : anchor ≤ ip) :
    anchor ≤ (catchUp src anchor ip m).1 := by
  induction ip generalizing m with
  | zero => exact h
  | succ ip ih =>
      cases m with
      | zero => exact h
      | succ m =>
          rw [catchUp]
          split
          · rename_i hback
            exact ih m (by omega)
          · exact h

theorem encodeMatch_again {src : Bytes} {tableType : TableType} {limit : OutputLimit}
    {table : HashTable} {op literals : Bytes} {ip m : Nat} {st : Encoder}
    (h : encodeMatch src tableType limit table op literals ip m = .again st) :
    ip < st.anchor ∧ st.anchor < mflimitPlusOne src := by
  unfold encodeMatch at h
  dsimp only at h
  split at h
  · cases h
  · split at h
    · cases h
    · rename_i hmore
      cases h
      constructor
      · dsimp only
        omega
      · exact Nat.lt_of_not_le hmore

/-- Every turn that does not end the block moves the anchor forward, and not past
the last position a match may start at. -/
theorem encodeTurn_again {src : Bytes} {tableType : TableType} {limit : OutputLimit}
    {acceleration : Acceleration} {st st' : Encoder}
    (h : encodeTurn src tableType limit acceleration st = .again st') :
    st.anchor < st'.anchor ∧ st'.anchor < mflimitPlusOne src := by
  unfold encodeTurn at h
  split at h
  · exact encodeMatch_again h
  · split at h
    · cases h
    · rename_i ip m table hfind
      have hfound : st.anchor + 1 ≤ ip := le_findMatch hfind
      dsimp only at h
      split at h
      · cases h
      · have hback := le_catchUp src m (Nat.le_of_succ_le hfound)
        have hmatch := encodeMatch_again h
        exact ⟨Nat.lt_of_le_of_lt hback hmatch.1, hmatch.2⟩

/-- The main loop, from a state to the whole block. -/
def encodeLoop (src : Bytes) (tableType : TableType) (limit : OutputLimit)
    (acceleration : Acceleration) (st : Encoder) : Option Bytes :=
  match _hturn : encodeTurn src tableType limit acceleration st with
  | .full => none
  | .lastLiterals op anchor => lastLiterals src limit op anchor
  | .again st' => encodeLoop src tableType limit acceleration st'
termination_by mflimitPlusOne src - st.anchor
decreasing_by
  have := encodeTurn_again _hturn
  omega

/-- The state at the head of the loop: the first byte is in the table. -/
def Encoder.start (src : Bytes) (tableType : TableType) : Encoder where
  hashTable := putPosition src tableType 0 fun _ => 0
  op := []
  anchor := 0
  next := none

/-- `LZ4_compress_generic_validated`. -/
def compressGenericValidated (src : Bytes) (limit : OutputLimit) (tableType : TableType)
    (acceleration : Acceleration) : Option Bytes :=
  if tableType = .byU16 ∧ 65536 + 11 ≤ src.length then none
  else if src.length < 13 then lastLiterals src limit [] 0
  else encodeLoop src tableType limit acceleration (.start src tableType)

/-- `LZ4_MAX_INPUT_SIZE`. -/
def maxInputSize : Nat := 0x7E000000

/-- `LZ4_compress_generic`; the empty source becomes a block of one token. -/
def compressGeneric (src : Bytes) (limit : OutputLimit) (tableType : TableType)
    (acceleration : Acceleration) : Option Bytes :=
  if maxInputSize < src.length then none
  else if src.length = 0 then
    if limit = .limitedOutput 0 then none else some [0]
  else compressGenericValidated src limit tableType acceleration

/-- `LZ4_compressBound`. -/
def compressBound (isize : Nat) : Nat :=
  if maxInputSize < isize then 0 else isize + isize / 255 + 16

/-- `LZ4_compress_fast_extState` on a fresh state, on a 64-bit machine. -/
def compressFastExtState (src : Bytes) (maxOutputSize : Nat) (acceleration : Int) :
    Option Bytes :=
  let acceleration := Acceleration.ofArgument acceleration
  let limit :=
    if compressBound src.length ≤ maxOutputSize then .notLimited
    else .limitedOutput maxOutputSize
  let tableType := if src.length < 65536 + 11 then .byU16 else .byU32
  compressGeneric src limit tableType acceleration

/-- `LZ4_compress_fast`. -/
def lz4CompressFast (src : Bytes) (maxOutputSize : Nat) (acceleration : Int) : Option Bytes :=
  compressFastExtState src maxOutputSize acceleration

end Debe
