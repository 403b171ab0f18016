import Debe.Lifecycle
import Debe.Sealing

/-!
# Statistics over restarts

At the start `Ecall_Enclave_Init` reads the key file, the constructor of the index
loads its own files, and `Ecall_Init_Upload` reads the five counters from the index
info file, all three through `inSealedFile_`.  At a clean shutdown `Ecall_Destroy_Upload`
writes the counters and deletes the index, which writes its own files, and
`Ecall_Enclave_Destroy` writes the key file if it does not exist.

Two loaders return on a size of zero without closing the stream.  That is harmless as
long as the size is zero because there is no file: an existing file that is empty
would leave the stream open on it, and the counters would be lost.  So the invariant
says of each file what keeps its reader off that path: an index that is written at all
is not empty, and the other writers put a count in front.
-/

namespace Debe

open LittleEndian

/-- The five counters of `EnclaveBase`. -/
structure Counters where
  logicalDataSize : UInt64 := 0
  logicalChunkNum : UInt64 := 0
  uniqueDataSize : UInt64 := 0
  uniqueChunkNum : UInt64 := 0
  compressedDataSize : UInt64 := 0
  deriving DecidableEq, Repr

/-- `sizeof(uint64_t) * 5`. -/
def infoBufSize : Nat := 8 * 5

/-- The words that are written to the index info file, in this order. -/
def Counters.words (c : Counters) : List UInt64 :=
  [c.logicalDataSize, c.logicalChunkNum, c.uniqueDataSize, c.uniqueChunkNum, c.compressedDataSize]

/-- A `uint64_t` as it lies in memory. -/
def wordBytes (w : UInt64) : Bytes := encode 8 w.toNat

/-- The index info file. -/
def Counters.toBytes (c : Counters) : Bytes := c.words.flatMap wordBytes

/-- The word copied from an offset of `infoBuf`. -/
def wordAt (infoBuf : Bytes) (offset : Nat) : UInt64 :=
  UInt64.ofNat (decode ((infoBuf.drop offset).take 8))

/-- The counters copied from `infoBuf`. -/
def Counters.ofBytes (infoBuf : Bytes) : Counters where
  logicalDataSize := wordAt infoBuf 0
  logicalChunkNum := wordAt infoBuf 8
  uniqueDataSize := wordAt infoBuf 16
  uniqueChunkNum := wordAt infoBuf 24
  compressedDataSize := wordAt infoBuf 32

/-- `OUT_ENCLAVE` to `IN_ENCLAVE`: the types that `Ecall_Init_Upload` knows. -/
inductive IndexType
  | outEnclave
  | extremeBin
  | sparseIndex
  | freqIndex
  | inEnclave
  deriving DecidableEq, Repr

/-- What an index object of a type loads and seals. -/
abbrev IndexObj : IndexType → Type
  | .outEnclave => Unit
  | .extremeBin => PrimaryIndex
  | .sparseIndex => HookIndex
  | .freqIndex => FreqIndex
  | .inEnclave => InsideIndex

/-- What the destructor of an index writes without leaving its buffer. -/
def IndexObj.Sealable : (t : IndexType) → IndexObj t → Prop
  | .outEnclave, _ => True
  | .extremeBin, m => PrimaryIndex.Sealable m
  | .sparseIndex, m => HookIndex.Sealable m
  | .freqIndex, idx => FreqIndex.Sealable idx
  | .inEnclave, m => InsideIndex.Sealable m

namespace Sealed

/-! ## The ecalls -/

/-- The keys in a buffer of `CHUNK_HASH_SIZE * 2` bytes. -/
def keysOf (readBuffer : Bytes) : Option Keys :=
  if h : readBuffer.length = chunkHashSize * 2 then some (Keys.ofBuffer ⟨readBuffer, h⟩) else none

/-- `Ecall_Enclave_Init`: the keys and `firstBootstrap_`. -/
def ecallEnclaveInit (junk : Nat → UInt8) (drawn : Keys) (s : Sealed) :
    Except Fault ((Keys × Bool) × Sealed) := do
  let opened := ocallInitReadSealedFile .enclaveKey s
  if opened.1 = 0 then return ((drawn, true), ocallCloseReadSealedFile opened.2)
  let r ← ocallReadSealedData (malloc junk (chunkHashSize * 2)) 0 (chunkHashSize * 2) opened.2
  let keys ← inRange (keysOf r.1)
  return ((keys, false), ocallCloseReadSealedFile r.2)

/-- `Ecall_Enclave_Destroy`. -/
def ecallEnclaveDestroy (keys : Keys × Bool) (s : Sealed) : Except Fault Sealed :=
  if keys.2 then do
    let s ← openOrExit .enclaveKey "cannot open the enclave key file." s
    let s := ocallWriteSealedData keys.1.enclaveKey s
    let s := ocallWriteSealedData keys.1.indexQueryKey s
    return ocallCloseWriteSealedFile s
  else .ok s

/-- The constructors of the index objects. -/
def construct (junk : Nat → UInt8) (sendChunkBatchSize : Nat) (s : Sealed) :
    (t : IndexType) → Except Fault (IndexObj t × Sealed)
  | .outEnclave => .ok ((), s)
  | .extremeBin => loadPrimaryIndex junk s
  | .sparseIndex => loadHookIndex junk s
  | .freqIndex => loadFreqIndex junk .init s
  | .inEnclave => loadInsideIndex junk sendChunkBatchSize s

/-- The destructors of the index objects. -/
def destruct (junk : Nat → UInt8) (sendChunkBatchSize : Nat) (s : Sealed) :
    (t : IndexType) → IndexObj t → Except Fault Sealed
  | .outEnclave, _ => .ok s
  | .extremeBin, m =>
      if (AList.entries m).length ≠ 0 then persistPrimaryIndex junk m s else .ok s
  | .sparseIndex, m =>
      if (AList.entries m).length ≠ 0 then persistHookIndex junk m s else .ok s
  | .freqIndex, idx => persistFreqIndex junk idx s
  | .inEnclave, m => persistInsideIndex junk sendChunkBatchSize m s

/-- `Ecall_Init_Upload`: the index object and its counters. -/
def ecallInitUpload (junk : Nat → UInt8) (sendChunkBatchSize : Nat) (t : IndexType) (s : Sealed) :
    Except Fault ((IndexObj t × Counters) × Sealed) := do
  let made ← construct junk sendChunkBatchSize s t
  let opened := ocallInitReadSealedFile .enclaveIndexInfo made.2
  if opened.1 ≠ 0 then
    let r ← ocallReadSealedData (malloc junk infoBufSize) 0 infoBufSize opened.2
    return ((made.1, .ofBytes r.1), ocallCloseReadSealedFile r.2)
  else return ((made.1, {}), ocallCloseReadSealedFile opened.2)

/-- `Ecall_Destroy_Upload`. -/
def ecallDestroyUpload (junk : Nat → UInt8) (sendChunkBatchSize : Nat) (t : IndexType)
    (enclaveBaseObj : IndexObj t × Counters) (s : Sealed) : Except Fault Sealed := do
  let s ← openOrExit .enclaveIndexInfo "cannot open the enclave index info file." s
  let s := enclaveBaseObj.2.words.foldl (fun s w => ocallWriteSealedData (wordBytes w) s) s
  let s := ocallCloseWriteSealedFile s
  destruct junk sendChunkBatchSize s t enclaveBaseObj.1

/-! ## Boots -/

/-- The streams of a process that has just started. -/
def newProcess (s : Sealed) : Sealed := { s with outSealedFile := none, inSealedFile := .new }

/-- Whether or not the process is a new one, the streams stay closed. -/
theorem Closed.start {s : Sealed} (h : Closed s) (new : Bool) :
    Closed (if new then s.newProcess else s) := by
  cases new with
  | true => exact ⟨rfl, rfl⟩
  | false => exact h

/-- The files are those of the disk. -/
@[simp] theorem start_files (s : Sealed) (new : Bool) :
    (if new then s.newProcess else s).files = s.files := by
  cases new <;> rfl

/-- What the start of a server depends on besides the disk: whether it is a new process
or the old one with its streams, what `malloc` gives, the configured batch size, the
keys that `sgx_read_rand` would draw and the index type of the command line. -/
structure Start where
  newProcess : Bool
  junk : Nat → UInt8
  sendChunkBatchSize : Nat
  batch_pos : 0 < sendChunkBatchSize
  drawn : Keys
  indexType : IndexType

/-- A server from its start to its clean shutdown: what the uploads in between, which
touch no sealed file, have made of the index and of the counters. -/
structure Boot extends Start where
  index : IndexObj indexType
  sealable : IndexObj.Sealable indexType index
  counters : Counters
  junkAtEnd : Nat → UInt8

/-- `main` up to the first client. -/
def start (b : Start) (s : Sealed) :
    Except Fault (((Keys × Bool) × IndexObj b.indexType × Counters) × Sealed) := do
  let s := if b.newProcess then s.newProcess else s
  let keys ← ecallEnclaveInit b.junk b.drawn s
  let enclaveBaseObj ← ecallInitUpload b.junk b.sendChunkBatchSize b.indexType keys.2
  return ((keys.1, enclaveBaseObj.1), enclaveBaseObj.2)

/-- `CTRLC`. -/
def shutdown (b : Boot) (keys : Keys × Bool) (s : Sealed) : Except Fault Sealed := do
  let s ← ecallDestroyUpload b.junkAtEnd b.sendChunkBatchSize b.indexType (b.index, b.counters) s
  ecallEnclaveDestroy keys s

/-- One boot on the disk that the last one left. -/
def boot (s : Sealed) (b : Boot) : Except Fault Sealed := do
  let r ← start b.toStart s
  shutdown b r.1.1 r.2

/-! ## The index info file -/

end Sealed

/-- The `i`-th of the words laid out one behind the other. -/
theorem wordAt_words {ws : List UInt64} {i : Nat} {w : UInt64} (h : ws[i]? = some w) :
    wordAt (ws.flatMap wordBytes) (8 * i) = w := by
  have hlen : ∀ v ∈ ws, (wordBytes v).length = 8 := fun _ _ => length_encode 8 _
  have hword : decode (wordBytes w) = w.toNat := decode_encode_of_lt w.toNat_lt
  rw [wordAt, Nat.mul_comm, Blocks.block hlen h, hword, UInt64.ofNat_toNat]

@[simp] theorem Counters.length_toBytes (c : Counters) : c.toBytes.length = infoBufSize := by
  simp [Counters.toBytes, Counters.words, wordBytes, infoBufSize]

/-- Reading the counters back. -/
theorem Counters.ofBytes_toBytes (c : Counters) : Counters.ofBytes c.toBytes = c := by
  obtain ⟨a, b, d, e, f⟩ := c
  simp only [Counters.ofBytes, Counters.mk.injEq]
  exact ⟨wordAt_words (i := 0) rfl, wordAt_words (i := 1) rfl, wordAt_words (i := 2) rfl,
    wordAt_words (i := 3) rfl, wordAt_words (i := 4) rfl⟩

namespace Sealed

/-- The front of a file, read into a buffer of its own. -/
theorem readFront (s : Sealed) (f : Bytes) (junk : Nat → UInt8) (n : Nat) :
    ∃ st, ocallReadSealedData (malloc junk n) 0 n (s.reading (.opened f)) =
      .ok (Buffer.overwrite (malloc junk n) 0 (f.take n), s.reading st) := by
  obtain ⟨st, -, -, hread⟩ := ocallReadSealedData_on s (InStream.on_opened f)
    (Nat.le_of_eq (by rw [Nat.zero_add, length_malloc]) : 0 + n ≤ (malloc junk n).length)
  exact ⟨st, by rw [hread, delivered, InStream.opened_pos, List.drop_zero]⟩

/-- **`Ecall_Init_Upload`** takes its counters from the index info file, provided that
the constructor leaves the stream closed. -/
theorem ecallInitUpload_eq {s : Sealed} (hs : Closed s) {junk : Nat → UInt8} {batchSize : Nat}
    {t : IndexType} {index : IndexObj t} (hmade : Loaded s (construct junk batchSize s t) index)
    {c : Option Counters} (hc : s.files .enclaveIndexInfo = c.map Counters.toBytes) :
    Loaded s (ecallInitUpload junk batchSize t s) (index, c.getD {}) := by
  obtain ⟨st, hmade, hst⟩ := hmade
  have hclosed := hs.reading hst
  cases c with
  | none =>
      have hfile : (s.reading st).files .enclaveIndexInfo = none := hc
      obtain ⟨st₁, hopen, -⟩ := ocallInitReadSealedFile_none hclosed hfile
      obtain ⟨st₂, hclose, hst₂⟩ := ocallCloseReadSealedFile_reading s st₁
      refine ⟨st₂, ?_, hst₂⟩
      simp only [ecallInitUpload, hmade, hopen, reading_reading, hclose, ne_eq, not_true_eq_false,
        if_false, bind, Except.bind, pure, Except.pure, Option.getD_none]
  | some c =>
      have hfile : (s.reading st).files .enclaveIndexInfo = some c.toBytes := hc
      have hopen := ocallInitReadSealedFile_some hclosed hfile
      obtain ⟨st₁, hread⟩ := readFront s c.toBytes junk infoBufSize
      obtain ⟨st₂, hclose, hst₂⟩ := ocallCloseReadSealedFile_reading s st₁
      have hsize : infoBufSize ≠ 0 := by decide
      have hbuf : Buffer.overwrite (malloc junk infoBufSize) 0 (c.toBytes.take infoBufSize) =
          c.toBytes := by
        rw [List.take_of_length_le c.length_toBytes.le]
        exact Buffer.overwrite_whole (by rw [length_malloc, c.length_toBytes])
      rw [hbuf] at hread
      refine ⟨st₂, ?_, hst₂⟩
      simp only [ecallInitUpload, hmade, hopen, reading_reading, c.length_toBytes, hsize, ne_eq,
        not_false_eq_true, if_true, hread, hclose, c.ofBytes_toBytes, bind, Except.bind, pure,
        Except.pure, Option.getD_some]

theorem writeWords_writing (s : Sealed) (name : SealedName) (ws : List UInt64) (done : Bytes) :
    ws.foldl (fun s w => ocallWriteSealedData (wordBytes w) s) (s.writing name done) =
      s.writing name (done ++ ws.flatMap wordBytes) := by
  induction ws generalizing done with
  | nil => simp
  | cons w ws ih =>
      rw [List.foldl_cons, ocallWriteSealedData_writing, ih, List.flatMap_cons, List.append_assoc]

/-- `Ecall_Destroy_Upload` is the counters written, and then the destructor. -/
theorem ecallDestroyUpload_eq {s : Sealed} (hs : Closed s) (junk : Nat → UInt8) (batchSize : Nat)
    (t : IndexType) (index : IndexObj t) (c : Counters) :
    ecallDestroyUpload junk batchSize t (index, c) s =
      destruct junk batchSize (s.put .enclaveIndexInfo c.toBytes) t index := by
  have hwords := writeWords_writing s .enclaveIndexInfo c.words []
  unfold ecallDestroyUpload
  rw [openOrExit_eq hs]
  simp only [bind, Except.bind]
  rw [hwords, ocallCloseWriteSealedFile_writing hs]
  rfl

/-! ## The key file -/

theorem keysOf_val (b : KeyBuffer) : keysOf b.val = some (Keys.ofBuffer b) := dif_pos b.property

/-- What a short key file leaves of the buffer. -/
theorem overwrite_keyBuffer (f : Bytes) (b : KeyBuffer) :
    Buffer.overwrite b.val 0 (f.take (chunkHashSize * 2)) =
      (Debe.ocallReadSealedData f b).val := by
  have hlen : b.val.length ≤ chunkHashSize * 2 := b.property.le
  have hrest : b.val.drop (f.take (chunkHashSize * 2)).length = b.val.drop f.length := by
    rw [List.length_take]
    rcases Nat.le_total f.length (chunkHashSize * 2) with hshort | hlong
    · rw [Nat.min_eq_right hshort]
    · rw [Nat.min_eq_left hlong, List.drop_of_length_le hlen,
        List.drop_of_length_le (hlen.trans hlong)]
  rw [Buffer.overwrite, Nat.zero_add, hrest]
  rfl

/-- The streams give `Ecall_Enclave_Init` its key file. -/
theorem ecallEnclaveInit_eq {s : Sealed} (hs : Closed s) (junk : Nat → UInt8) (drawn : Keys) :
    Loaded s (ecallEnclaveInit junk drawn s)
      (Debe.ecallEnclaveInit ((s.files .enclaveKey).getD []) drawn
        ⟨malloc junk (chunkHashSize * 2), length_malloc _ _⟩) := by
  cases hf : s.files .enclaveKey with
  | none =>
      obtain ⟨st₁, hopen, -⟩ := ocallInitReadSealedFile_none hs hf
      obtain ⟨st₂, hclose, hst₂⟩ := ocallCloseReadSealedFile_reading s st₁
      refine ⟨st₂, ?_, hst₂⟩
      simp only [ecallEnclaveInit, hopen, if_true, hclose]
      rfl
  | some f =>
      have hopen := ocallInitReadSealedFile_some hs hf
      rw [Option.getD_some, Debe.ecallEnclaveInit]
      split
      · rename_i hzero
        obtain ⟨st₂, hclose, hst₂⟩ := ocallCloseReadSealedFile_reading s (.opened f)
        refine ⟨st₂, ?_, hst₂⟩
        simp only [ecallEnclaveInit, hopen, hzero, if_true, hclose]
        rfl
      · rename_i hsize
        obtain ⟨st₁, hread⟩ := readFront s f junk (chunkHashSize * 2)
        obtain ⟨st₂, hclose, hst₂⟩ := ocallCloseReadSealedFile_reading s st₁
        rw [overwrite_keyBuffer f ⟨_, length_malloc junk _⟩] at hread
        refine ⟨st₂, ?_, hst₂⟩
        simp only [ecallEnclaveInit, hopen, hsize, if_false, hread, keysOf_val, inRange, hclose,
          bind, Except.bind, pure, Except.pure]

/-- `Ecall_Enclave_Destroy` rewrites the key file or leaves it. -/
theorem ecallEnclaveDestroy_eq {s : Sealed} (hs : Closed s) (keys : Keys × Bool) :
    ecallEnclaveDestroy keys s =
      .ok (if keys.2 then s.put .enclaveKey keys.1.toBytes else s) := by
  unfold ecallEnclaveDestroy
  split
  · rw [openOrExit_eq hs]
    simp only [bind, Except.bind, pure, Except.pure]
    rw [ocallWriteSealedData_writing, ocallWriteSealedData_writing,
      ocallCloseWriteSealedFile_writing hs]
    rfl
  · rfl

/-! ## What the disk holds between two boots -/

/-- What a sealed file holds if there is one.  None that a loader can stop at is empty. -/
def GoodFile : SealedName → Bytes → Prop
  | .enclaveKey, _ => True
  | .enclaveIndexInfo, _ => True
  | .primaryIndex, f => f ≠ []
  | .sparseIndex, f => ∃ m : HookIndex, m.Sealable ∧ m.entries ≠ [] ∧ f = hookImages m.entries
  | .freqIndex, f => ∃ h : EntryHeap, h.Sealable ∧ f = heapImages h
  | .sketch, f => f ≠ []
  | .baselineIndex, f => ∃ m : InsideIndex, m.Sealable ∧ f = insideImages m.entries

/-- Between two boots: the streams are closed, the files are good, and a sketch comes
with its heap. -/
structure Ready (s : Sealed) : Prop where
  closed : Closed s
  good : ∀ name f, s.files name = some f → GoodFile name f
  heap : s.files .sketch ≠ none → ∃ g, s.files .freqIndex = some g

theorem ready_init : Ready init where
  closed := closed_init
  good := nofun
  heap := fun h => absurd rfl h

/-- Reading changes nothing. -/
theorem Ready.of_files {s s' : Sealed} (h : Ready s) (hclosed : Closed s')
    (hfiles : s'.files = s.files) : Ready s' where
  closed := hclosed
  good := by
    rw [hfiles]
    exact h.good
  heap := by
    rw [hfiles]
    exact h.heap

theorem good_put {s : Sealed} (h : ∀ name f, s.files name = some f → GoodFile name f)
    {name : SealedName} {f : Bytes} (hf : GoodFile name f) :
    ∀ other g, (s.put name f).files other = some g → GoodFile other g := by
  intro other g hg
  by_cases hother : other = name
  · subst hother
    rw [put_files_self] at hg
    cases hg
    exact hf
  · rw [put_files_of_ne hother] at hg
    exact h other g hg

/-- A good file is written.  The sketch is not written alone. -/
theorem Ready.put {s : Sealed} (h : Ready s) {name : SealedName} {f : Bytes}
    (hf : GoodFile name f) (hname : name ≠ .sketch) : Ready (s.put name f) where
  closed := h.closed.put _ _
  good := good_put h.good hf
  heap := by
    rw [put_files_of_ne hname.symm]
    intro hsketch
    by_cases hheap : SealedName.freqIndex = name
    · subst hheap
      exact ⟨f, put_files_self s _ f⟩
    · rw [put_files_of_ne hheap]
      exact h.heap hsketch

/-- The sketch and the heap are written. -/
theorem Ready.put_freqIndex {s : Sealed} (h : Ready s) {f g : Bytes} (hf : GoodFile .sketch f)
    (hg : GoodFile .freqIndex g) : Ready ((s.put .sketch f).put .freqIndex g) where
  closed := (h.closed.put _ _).put _ _
  good := good_put (good_put h.good hf) hg
  heap := fun _ => ⟨g, put_files_self _ _ g⟩

/-! ## Loading and sealing, for every index type -/

/-- **Every loader closes the stream** on good files, whichever way it returns. -/
theorem Ready.construct {s : Sealed} (h : Ready s) (junk : Nat → UInt8) {batchSize : Nat}
    (hpos : 0 < batchSize) (t : IndexType) :
    ∃ index, Loaded s (Sealed.construct junk batchSize s t) index := by
  cases t with
  | outEnclave => exact ⟨(), s.inSealedFile, rfl, h.closed.inside⟩
  | extremeBin =>
      cases hf : s.files .primaryIndex with
      | none => exact ⟨_, loadPrimaryIndex_none h.closed hf junk⟩
      | some f => exact loadPrimaryIndex_some h.closed hf (h.good _ _ hf) junk
  | sparseIndex =>
      cases hf : s.files .sparseIndex with
      | none => exact ⟨_, loadHookIndex_none h.closed hf junk⟩
      | some f =>
          obtain ⟨m, hm, hne, rfl⟩ := h.good _ _ hf
          exact ⟨_, loadHookIndex_eq hm hne h.closed hf junk⟩
  | freqIndex =>
      cases hf : s.files .sketch with
      | none => exact ⟨_, loadFreqIndex_none h.closed hf junk .init⟩
      | some f =>
          obtain ⟨g, hg⟩ := h.heap (by simp [hf])
          obtain ⟨heap, hheap, rfl⟩ := h.good _ _ hg
          exact loadFreqIndex_some h.closed hf (h.good _ _ hf) hheap hg junk .init
  | inEnclave =>
      cases hf : s.files .baselineIndex with
      | none => exact ⟨_, loadInsideIndex_none h.closed hf junk batchSize⟩
      | some f =>
          obtain ⟨m, hm, rfl⟩ := h.good _ _ hf
          exact ⟨_, loadInsideIndex_eq hm h.closed hf junk hpos⟩

/-- The file of an index that is not empty is not empty. -/
theorem entryImages_ne_nil {m : PrimaryIndex} (hm : m.Sealable) (hne : m.entries.length ≠ 0) :
    entryImages m.entries ≠ [] := by
  intro hnil
  have hlen := length_entryImages hm.sizes
  rw [hnil, List.length_nil] at hlen
  have hpos : 0 < chunkHashSize + primaryValueSize := by decide
  rcases Nat.mul_eq_zero.mp hlen.symm with hzero | hzero
  · exact hne hzero
  · omega

/-- The sketch has rows and columns. -/
theorem sketchImages_ne_nil {idx : FreqIndex} (h : idx.Sealable) :
    sketchImages idx.cmSketch ≠ [] := by
  have hdepth : idx.cmSketch.depth = FreqIndex.init.cmSketch.depth := h.depth
  have hrow : (rowBytes idx.cmSketch 0).length = 4 * FreqIndex.init.cmSketch.width := by
    rw [← h.width]
    exact length_counters _ _
  intro hnil
  have hmem : 0 ∈ List.range idx.cmSketch.depth := by
    rw [hdepth, List.mem_range]
    decide
  have hzero : rowBytes idx.cmSketch 0 = [] := List.flatMap_eq_nil_iff.mp hnil 0 hmem
  rw [hzero] at hrow
  exact absurd hrow (by decide)

/-- **Every destructor leaves good files**, and does not touch the index info file. -/
theorem Ready.destruct {s : Sealed} (h : Ready s) (junk : Nat → UInt8) {batchSize : Nat}
    (hpos : 0 < batchSize) {t : IndexType} {index : IndexObj t}
    (hindex : IndexObj.Sealable t index) :
    ∃ s', Sealed.destruct junk batchSize s t index = .ok s' ∧ Ready s' ∧
      s'.files .enclaveIndexInfo = s.files .enclaveIndexInfo := by
  cases t with
  | outEnclave => exact ⟨s, rfl, h, rfl⟩
  | extremeBin =>
      simp only [Sealed.destruct]
      split
      · rename_i hne
        exact ⟨_, persistPrimaryIndex_eq hindex h.closed junk,
          h.put (entryImages_ne_nil hindex hne) (by decide), put_files_of_ne (by decide) _⟩
      · exact ⟨s, rfl, h, rfl⟩
  | sparseIndex =>
      simp only [Sealed.destruct]
      split
      · rename_i hne
        exact ⟨_, persistHookIndex_eq hindex h.closed junk,
          h.put ⟨index, hindex, by simpa using hne, rfl⟩ (by decide), put_files_of_ne (by decide) _⟩
      · exact ⟨s, rfl, h, rfl⟩
  | freqIndex =>
      refine ⟨_, persistFreqIndex_eq hindex.heap h.closed junk,
        h.put_freqIndex (sketchImages_ne_nil hindex) ⟨_, hindex.heap, rfl⟩, ?_⟩
      rw [put_files_of_ne (by decide), put_files_of_ne (by decide)]
  | inEnclave =>
      exact ⟨_, persistInsideIndex_eq hindex h.closed junk hpos,
        h.put ⟨index, hindex, rfl⟩ (by decide), put_files_of_ne (by decide) _⟩

/-! ## Whole runs -/

/-- **A start** succeeds and finds the counters that the index info file holds. -/
theorem Ready.start {s : Sealed} (h : Ready s) (b : Start) {c : Option Counters}
    (hc : s.files .enclaveIndexInfo = c.map Counters.toBytes) :
    ∃ keys index s', Sealed.start b s = .ok ((keys, index, c.getD {}), s') ∧ Ready s' := by
  obtain ⟨s₀, hs₀, hclosed₀, hfiles₀⟩ : ∃ s₀, (if b.newProcess then s.newProcess else s) = s₀ ∧
      Closed s₀ ∧ s₀.files = s.files := ⟨_, rfl, h.closed.start _, start_files _ _⟩
  obtain ⟨keys, st₁, hkeys, hst₁⟩ : ∃ keys st, ecallEnclaveInit b.junk b.drawn s₀ =
      .ok (keys, s₀.reading st) ∧ st.file = none :=
    ⟨_, ecallEnclaveInit_eq hclosed₀ b.junk b.drawn⟩
  have hready₁ : Ready (s₀.reading st₁) := h.of_files (hclosed₀.reading hst₁) hfiles₀
  obtain ⟨index, hmade⟩ := hready₁.construct b.junk b.batch_pos b.indexType
  obtain ⟨st₂, hinit, hst₂⟩ := ecallInitUpload_eq hready₁.closed hmade
    (hfiles₀ ▸ hc : s₀.files .enclaveIndexInfo = c.map Counters.toBytes)
  have hready₂ : Ready ((s₀.reading st₁).reading st₂) :=
    h.of_files (hready₁.closed.reading hst₂) hfiles₀
  refine ⟨keys, index, _, ?_, hready₂⟩
  simp only [Sealed.start, hs₀, hkeys, hinit, bind, Except.bind, pure, Except.pure]

/-- **A clean shutdown** succeeds and leaves the counters in the index info file. -/
theorem Ready.shutdown {s : Sealed} (h : Ready s) (b : Boot) (keys : Keys × Bool) :
    ∃ s', Sealed.shutdown b keys s = .ok s' ∧ Ready s' ∧
      s'.files .enclaveIndexInfo = some b.counters.toBytes := by
  have hready : Ready (s.put .enclaveIndexInfo b.counters.toBytes) := h.put trivial nofun
  obtain ⟨s₁, hdestruct, hready₁, hinfo⟩ := hready.destruct b.junkAtEnd b.batch_pos b.sealable
  rw [put_files_self] at hinfo
  refine ⟨if keys.2 then s₁.put .enclaveKey keys.1.toBytes else s₁, ?_, ?_, ?_⟩
  · simp only [Sealed.shutdown, ecallDestroyUpload_eq h.closed, hdestruct,
      ecallEnclaveDestroy_eq hready₁.closed, bind, Except.bind]
  · split
    · exact hready₁.put trivial nofun
    · exact hready₁
  · split
    · rw [put_files_of_ne (by decide), hinfo]
    · exact hinfo

/-- What one boot leaves, from any ready disk. -/
theorem Ready.boot {s : Sealed} (h : Ready s) {c : Option Counters}
    (hc : s.files .enclaveIndexInfo = c.map Counters.toBytes) (b : Boot) :
    ∃ s', Sealed.boot s b = .ok s' ∧ Ready s' ∧
      s'.files .enclaveIndexInfo = (some b.counters).map Counters.toBytes := by
  obtain ⟨keys, index, s₁, hstart, hready₁⟩ := h.start b.toStart hc
  obtain ⟨s₂, hshutdown, hready₂, hinfo⟩ := hready₁.shutdown b keys
  refine ⟨s₂, ?_, hready₂, hinfo⟩
  simp only [Sealed.boot, hstart, hshutdown, bind, Except.bind]

/-- Any number of boots, from the first start of the server on. -/
theorem boots_ready (boots : List Boot) :
    ∃ s, boots.foldlM Sealed.boot init = .ok s ∧ Ready s ∧
      s.files .enclaveIndexInfo = (boots.getLast?.map Boot.counters).map Counters.toBytes := by
  refine Loops.foldlM_ok (P := fun pre s => Ready s ∧
    s.files .enclaveIndexInfo = (pre.getLast?.map Boot.counters).map Counters.toBytes)
    ⟨ready_init, rfl⟩ ?_
  rintro pre b rest s - ⟨hready, hinfo⟩
  obtain ⟨s', hboot, hready', hinfo'⟩ := hready.boot hinfo b
  refine ⟨s', hboot, hready', ?_⟩
  rw [hinfo', List.getLast?_concat]
  rfl

/-- **Clean restarts keep the statistics.**  After any number of boots, of any index
types and with any uploads in them, the next start succeeds and finds the five counters
of the last shutdown; the first start finds them at zero. -/
theorem counters_outlive_restarts (boots : List Boot) (next : Start) :
    ∃ s keys index s', boots.foldlM Sealed.boot init = .ok s ∧
      Sealed.start next s =
        .ok ((keys, index, (boots.getLast?.map Boot.counters).getD {}), s') := by
  obtain ⟨s, hrun, hready, hinfo⟩ := boots_ready boots
  obtain ⟨keys, index, s', hstart, -⟩ := hready.start next hinfo
  exact ⟨s, keys, index, s', hrun, hstart⟩

end Sealed

end Debe
