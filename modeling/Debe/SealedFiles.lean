import Debe.FreqIndex
import Debe.Lib.Buffers
import Debe.Lib.FileStream

/-!
# Sealed files

What the enclave keeps over a restart goes through two global streams of the ocall
layer, `outSealedFile_` and `inSealedFile_`, one for all files and all callers.
The name that every ocall is given is read by the two that open a file; the others
work on whatever the stream is open on.

A writer that finds the stream open is told so.  A reader is not: its `open` fails,
`tellg` then gives `-1` twice, so that the size comes out as zero, and the stream
stays on the file it was open on.  So every reader depends on the ones before it
having closed the stream.
-/

namespace Debe

open Records

/-- The sealed files, under the names that the headers define for them:
`enclave-key`, `enclave-index-info`, `primary-seal-index`, `sparse-seal-index`,
`freq-index`, `cm-sketch` and `baseline-seal-index`. -/
inductive SealedName
  | enclaveKey
  | enclaveIndexInfo
  | primaryIndex
  | sparseIndex
  | freqIndex
  | sketch
  | baselineIndex
  deriving DecidableEq, Repr

/-- The files on disk, the file `outSealedFile_` is open on, and `inSealedFile_`. -/
structure Sealed where
  files : SealedName → Option Bytes
  outSealedFile : Option SealedName
  inSealedFile : InStream UInt8

namespace Sealed

/-- A server that starts for the first time. -/
def init : Sealed where
  files := fun _ => none
  outSealedFile := none
  inSealedFile := .new

/-- `SGX_PERSISTENCE_BUFFER_SIZE`. -/
def sgxPersistenceBufferSize : Nat := 2 * 1024 * 1024

/-- What `malloc` gives: a buffer with any contents. -/
def malloc (junk : Nat → UInt8) (n : Nat) : Bytes := (List.range n).map junk

@[simp] theorem length_malloc (junk : Nat → UInt8) (n : Nat) : (malloc junk n).length = n := by
  simp [malloc]

/-! ## The ocalls -/

/-- `Ocall_InitWriteSealedFile`. -/
def ocallInitWriteSealedFile (name : SealedName) (s : Sealed) : Bool × Sealed :=
  if s.outSealedFile.isSome then (false, s)
  else (true, { s with
    files := Function.update s.files name (some [])
    outSealedFile := some name })

/-- `Ocall_WriteSealedData`.  A stream that is not open takes nothing. -/
def ocallWriteSealedData (data : Bytes) (s : Sealed) : Sealed :=
  match s.outSealedFile with
  | some name => { s with
      files := Function.update s.files name (some ((s.files name).getD [] ++ data)) }
  | none => s

/-- `Ocall_CloseWriteSealedFile`. -/
def ocallCloseWriteSealedFile (s : Sealed) : Sealed := { s with outSealedFile := none }

/-- `Ocall_InitReadSealedFile`: the size of the file. -/
def ocallInitReadSealedFile (name : SealedName) (s : Sealed) : Nat × Sealed :=
  let st := s.inSealedFile.openFile (s.files name)
  if st.isOpen then
    let begin_ := st.tellg
    let end_ := (begin_.2.seekg begin_.2.endPos).tellg
    ((end_.1 - begin_.1).toNat, { s with inSealedFile := end_.2.clear.seekg 0 })
  else (0, { s with inSealedFile := st })

/-- `Ocall_CloseReadSealedFile`. -/
def ocallCloseReadSealedFile (s : Sealed) : Sealed :=
  if s.inSealedFile.isOpen then { s with inSealedFile := s.inSealedFile.close } else s

/-- `Ocall_ReadSealedData` of `n` bytes to an offset of a buffer.  What the file does
not deliver leaves the buffer as it was. -/
def ocallReadSealedData (buffer : Bytes) (offset n : Nat) (s : Sealed) :
    Except Fault (Bytes × Sealed) :=
  if offset + n ≤ buffer.length then
    let r := s.inSealedFile.read n
    .ok (Buffer.overwrite buffer offset r.1, { s with inSealedFile := r.2 })
  else .error .outOfRange

/-- `WriteBufferToFile`: the buffer leaves in pieces. -/
def writeBufferToFile (buffer : Bytes) (s : Sealed) : Sealed :=
  (pieces sgxPersistenceBufferSize buffer).foldl (fun s data => ocallWriteSealedData data s) s

/-- The loop of `ReadFileToBuffer`.  Every round but the last reads a whole piece. -/
def readLoop : Nat → Bytes → Nat → Nat → Sealed → Except Fault (Bytes × Sealed)
  | 0, buffer, _, _, s => .ok (buffer, s)
  | fuel+1, buffer, offset, remainSize, s =>
      if remainSize = 0 then .ok (buffer, s)
      else if sgxPersistenceBufferSize < remainSize then do
        let r ← ocallReadSealedData buffer offset sgxPersistenceBufferSize s
        readLoop fuel r.1 (offset + sgxPersistenceBufferSize)
          (remainSize - sgxPersistenceBufferSize) r.2
      else ocallReadSealedData buffer offset remainSize s

/-- `ReadFileToBuffer`. -/
def readFileToBuffer (buffer : Bytes) (bufferSize : Nat) (s : Sealed) :
    Except Fault (Bytes × Sealed) :=
  readLoop bufferSize buffer 0 bufferSize s

/-! ## A file is written -/

/-- Both streams are closed. -/
structure Closed (s : Sealed) : Prop where
  outside : s.outSealedFile = none
  inside : s.inSealedFile.file = none

theorem closed_init : Closed init := ⟨rfl, rfl⟩

/-- The same streams, with one file rewritten. -/
def put (s : Sealed) (name : SealedName) (content : Bytes) : Sealed :=
  { s with files := Function.update s.files name (some content) }

theorem Closed.put {s : Sealed} (h : Closed s) (name : SealedName) (content : Bytes) :
    Closed (s.put name content) := ⟨h.outside, h.inside⟩

@[simp] theorem put_files_self (s : Sealed) (name : SealedName) (content : Bytes) :
    (s.put name content).files name = some content := Function.update_self _ _ _

theorem put_files_of_ne {s : Sealed} {name other : SealedName} (hne : other ≠ name)
    (content : Bytes) : (s.put name content).files other = s.files other :=
  Function.update_of_ne hne _ _

/-- From `s` on, `done` has been written to the file. -/
def writing (s : Sealed) (name : SealedName) (done : Bytes) : Sealed :=
  { s.put name done with outSealedFile := some name }

theorem ocallInitWriteSealedFile_eq {s : Sealed} (h : Closed s) (name : SealedName) :
    ocallInitWriteSealedFile name s = (true, s.writing name []) := by
  simp [ocallInitWriteSealedFile, h.outside, writing, put]

theorem ocallWriteSealedData_writing (s : Sealed) (name : SealedName) (done data : Bytes) :
    ocallWriteSealedData data (s.writing name done) = s.writing name (done ++ data) := by
  simp [ocallWriteSealedData, writing, put]

/-- However it is cut, the whole buffer reaches the file. -/
theorem writeBufferToFile_writing (s : Sealed) (name : SealedName) (done buffer : Bytes) :
    writeBufferToFile buffer (s.writing name done) = s.writing name (done ++ buffer) := by
  have hloop : ∀ (ds : List Bytes) (done : Bytes),
      ds.foldl (fun s data => ocallWriteSealedData data s) (s.writing name done) =
        s.writing name (done ++ ds.flatten) := by
    intro ds
    induction ds with
    | nil => simp
    | cons d ds ih =>
        intro done
        rw [List.foldl_cons, ocallWriteSealedData_writing, ih, List.flatten_cons,
          List.append_assoc]
  rw [writeBufferToFile, hloop, flatten_pieces (by decide)]

theorem ocallCloseWriteSealedFile_writing {s : Sealed} (h : Closed s) (name : SealedName)
    (done : Bytes) : ocallCloseWriteSealedFile (s.writing name done) = s.put name done := by
  simp [ocallCloseWriteSealedFile, writing, put, h.outside]

/-! ## A file is read -/

/-- The same files, with the input stream in some state. -/
def reading (s : Sealed) (st : InStream UInt8) : Sealed := { s with inSealedFile := st }

@[simp] theorem reading_files (s : Sealed) (st : InStream UInt8) :
    (s.reading st).files = s.files := rfl

@[simp] theorem reading_reading (s : Sealed) (st st' : InStream UInt8) :
    (s.reading st).reading st' = s.reading st' := rfl

theorem ocallInitReadSealedFile_some {s : Sealed} (h : Closed s) {name : SealedName} {f : Bytes}
    (hf : s.files name = some f) :
    ocallInitReadSealedFile name s = (f.length, s.reading (.opened f)) := by
  simp [ocallInitReadSealedFile, hf, h.inside, InStream.opened, InStream.isOpen, InStream.tellg,
    InStream.good, InStream.seekg, InStream.endPos, InStream.clear, reading]

theorem ocallInitReadSealedFile_none {s : Sealed} (h : Closed s) {name : SealedName}
    (hf : s.files name = none) :
    ∃ st, ocallInitReadSealedFile name s = (0, s.reading st) ∧ st.file = none := by
  refine ⟨{ s.inSealedFile with failbit := true }, ?_, h.inside⟩
  simp [ocallInitReadSealedFile, hf, h.inside, InStream.isOpen, reading]

theorem Closed.reading {s : Sealed} (h : Closed s) {st : InStream UInt8} (hst : st.file = none) :
    Closed (s.reading st) := ⟨h.outside, hst⟩

/-- Whatever the stream is open on, closing it closes it. -/
theorem ocallCloseReadSealedFile_reading (s : Sealed) (st : InStream UInt8) :
    ∃ st', ocallCloseReadSealedFile (s.reading st) = s.reading st' ∧ st'.file = none := by
  cases hopen : st.file with
  | none =>
      refine ⟨st, ?_, hopen⟩
      simp [ocallCloseReadSealedFile, reading, InStream.isOpen, hopen]
  | some f =>
      refine ⟨st.close, ?_, InStream.close_file st⟩
      simp [ocallCloseReadSealedFile, reading, InStream.isOpen, hopen]

/-- What a read of `n` bytes delivers. -/
def delivered (f : Bytes) (st : InStream UInt8) (n : Nat) : Bytes := (f.drop st.pos).take n

theorem ocallReadSealedData_on (s : Sealed) {f : Bytes} {st : InStream UInt8} (h : st.On f)
    {buffer : Bytes} {offset n : Nat} (hfit : offset + n ≤ buffer.length) :
    ∃ st', st'.On f ∧ st'.pos = st.pos + (delivered f st n).length ∧
      ocallReadSealedData buffer offset n (s.reading st) =
        .ok (Buffer.overwrite buffer offset (delivered f st n), s.reading st') := by
  obtain ⟨hdata, hpos, hon⟩ := h.read n
  refine ⟨(st.read n).2, hon, hpos, ?_⟩
  simp only [ocallReadSealedData, hfit, if_true, reading, hdata, delivered]

theorem length_delivered_le (f : Bytes) (st : InStream UInt8) (n : Nat) :
    (delivered f st n).length ≤ n := List.length_take_le _ _

/-- What is delivered next, after a read that got all it asked for or came to the end. -/
theorem delivered_add {f : Bytes} {st st' : InStream UInt8} (m n : Nat)
    (hpos : st'.pos = st.pos + (delivered f st m).length) :
    delivered f st (m + n) = delivered f st m ++ delivered f st' n ∧
      ((delivered f st m).length = m ∨ delivered f st' n = []) := by
  have hcut : f.drop st'.pos = (f.drop st.pos).drop (delivered f st m).length := by
    rw [hpos, List.drop_drop]
  rcases Nat.lt_or_ge (f.drop st.pos).length m with hshort | hfull
  · have hall : delivered f st m = f.drop st.pos := List.take_of_length_le hshort.le
    have hnone : delivered f st' n = [] := by
      rw [delivered, hcut, hall, List.drop_length, List.take_nil]
    refine ⟨?_, .inr hnone⟩
    rw [hnone, List.append_nil, hall, delivered, List.take_of_length_le (by omega)]
  · have hlen : (delivered f st m).length = m := by
      rw [delivered, List.length_take, Nat.min_eq_left hfull]
    refine ⟨?_, .inl hlen⟩
    rw [delivered, List.take_add, delivered, delivered, hcut, hlen]

/-- The loop of `ReadFileToBuffer` delivers what one read would. -/
theorem readLoop_on {f : Bytes} (fuel : Nat) {s : Sealed} {st : InStream UInt8} (h : st.On f)
    {buffer : Bytes} {offset remainSize : Nat} (hfit : offset + remainSize ≤ buffer.length)
    (hfuel : remainSize ≤ fuel) :
    ∃ st', st'.On f ∧ st'.pos = st.pos + (delivered f st remainSize).length ∧
      readLoop fuel buffer offset remainSize (s.reading st) =
        .ok (Buffer.overwrite buffer offset (delivered f st remainSize), s.reading st') := by
  induction fuel generalizing st buffer offset remainSize with
  | zero =>
      have hzero : remainSize = 0 := Nat.le_zero.mp hfuel
      exact ⟨st, h, by simp [hzero, delivered], by simp [hzero, readLoop, delivered]⟩
  | succ fuel ih =>
      rw [readLoop]
      split
      · rename_i hzero
        exact ⟨st, h, by simp [hzero, delivered], by simp [hzero, delivered]⟩
      · split
        · rename_i _ hmore
          have hpos : 0 < sgxPersistenceBufferSize := by decide
          have hfirst : offset + sgxPersistenceBufferSize ≤ buffer.length := by omega
          obtain ⟨st₁, hon₁, hpos₁, hread⟩ := ocallReadSealedData_on s h hfirst
          have hle := length_delivered_le f st sgxPersistenceBufferSize
          have hlen : (Buffer.overwrite buffer offset
              (delivered f st sgxPersistenceBufferSize)).length = buffer.length :=
            Buffer.length_overwrite (by omega)
          have hsecond : offset + sgxPersistenceBufferSize +
              (remainSize - sgxPersistenceBufferSize) ≤
                (Buffer.overwrite buffer offset
                  (delivered f st sgxPersistenceBufferSize)).length := by
            omega
          obtain ⟨st₂, hon₂, hpos₂, hrest⟩ := ih hon₁ hsecond (by omega)
          obtain ⟨hadd, hwhole⟩ := delivered_add sgxPersistenceBufferSize
            (remainSize - sgxPersistenceBufferSize) hpos₁
          rw [show sgxPersistenceBufferSize + (remainSize - sgxPersistenceBufferSize) =
            remainSize by omega] at hadd
          refine ⟨st₂, hon₂, ?_, ?_⟩
          · rw [hpos₂, hpos₁, hadd, List.length_append, Nat.add_assoc]
          · rw [hread]
            change readLoop fuel _ _ _ (s.reading st₁) = _
            rw [hrest, hadd]
            congr 2
            rcases hwhole with hwhole | hend
            · rw [← Buffer.overwrite_overwrite (by omega), hwhole]
            · rw [hend, Buffer.overwrite_nil, List.append_nil]
        · exact ocallReadSealedData_on s h hfit

/-- **`ReadFileToBuffer`** fills the buffer with what stands at the stream's position;
at the end of the file the rest of the buffer stays as it was. -/
theorem readFileToBuffer_on {f : Bytes} {s : Sealed} {st : InStream UInt8} (h : st.On f)
    {buffer : Bytes} {bufferSize : Nat} (hfit : bufferSize ≤ buffer.length) :
    ∃ st', st'.On f ∧ st'.pos = st.pos + (delivered f st bufferSize).length ∧
      readFileToBuffer buffer bufferSize (s.reading st) =
        .ok (Buffer.overwrite buffer 0 (delivered f st bufferSize), s.reading st') :=
  readLoop_on bufferSize h (by omega) le_rfl

/-- A file read whole into a buffer of its size. -/
theorem readFileToBuffer_whole (s : Sealed) (f : Bytes) (junk : Nat → UInt8) :
    ∃ st, readFileToBuffer (malloc junk f.length) f.length (s.reading (.opened f)) =
      .ok (f, s.reading st) := by
  obtain ⟨st, -, -, hread⟩ := readFileToBuffer_on (s := s) (InStream.on_opened f)
    (Nat.le_of_eq (length_malloc junk f.length).symm)
  have hall : delivered f (.opened f) f.length = f := by simp [delivered]
  have hover : Buffer.overwrite (malloc junk f.length) 0 f = f :=
    Buffer.overwrite_whole (length_malloc junk f.length).le
  exact ⟨st, by rw [hread, hall, hover]⟩

end Sealed

end Debe
