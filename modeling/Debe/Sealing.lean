import Debe.SealedFiles
import Debe.Lib.Blocks

/-!
# What the index designs seal

Each index object writes itself to its sealed files when it is deleted and loads
them when it is made.  `EcallFreqIndex` writes the sketch and the heap to two files,
`EcallInEnclaveIndex` its map through a buffer of one batch, `EcallSparseIndex` and
`EcallExtremeBinIndex` their maps, if they are not empty, through a buffer whose size
is computed in 32 bits.  `EcallOutEnclaveIndex` seals nothing.

Copies into and out of a buffer that would leave it have no result.  An
`unordered_map` is an `AList`, whose entries stand in some iteration order; `insert`
keeps an entry that is already there.  A loader that finds no file returns `false`
at once and leaves the index empty.
-/

namespace Debe

open LittleEndian Sealed

/-- `SEGMENT_ID_LENGTH`. -/
def segmentIDLength : Nat := 16

/-- `sizeof(PrimaryValue_t)`: the segment hash and the bin ID. -/
def primaryValueSize : Nat := chunkHashSize + segmentIDLength

/-- `sizeof(HeapItem_t)`. -/
def heapItemSize : Nat := recipeEntrySize + 4 + 4

/-- `unordered_map::insert`. -/
def insertNew {β : Type} (m : AList (fun _ : Bytes => β)) (k : Bytes) (v : β) :
    AList (fun _ : Bytes => β) :=
  if k ∈ m then m else m.insert k v

/-- The first `n` bytes of a string, by `memcpy` from `c_str()`. -/
def cStr (str : Bytes) (n : Nat) : Except Fault Bytes := inRange (Buffer.read str 0 n)

/-- Open a sealed file for writing, or exit. -/
def openOrExit (name : SealedName) (message : String) (s : Sealed) : Except Fault Sealed :=
  let w := ocallInitWriteSealedFile name s
  if w.1 then .ok w.2 else ocallSGXExitError message

/-- Copy one thing behind the other: the buffer and `offset`. -/
def pack (st : Bytes × Nat) (data : Bytes) : Except Fault (Bytes × Nat) := do
  let buffer ← inRange (Buffer.write st.1 st.2 data)
  return (buffer, st.2 + data.length)

/-! ## `EcallExtremeBinIndex` -/

/-- `primaryIndex_`. -/
abbrev PrimaryIndex := AList (fun _ : Bytes => Bytes)

/-- The size of an entry in the file. -/
def primaryEntrySize : Nat := chunkHashSize + primaryValueSize

/-- The loop body of `PersistPrimaryIndex`.  Here `offset` counts entries. -/
def packPrimary (st : Bytes × Nat) (e : Sigma fun _ : Bytes => Bytes) :
    Except Fault (Bytes × Nat) := do
  let key ← cStr e.1 chunkHashSize
  let buffer ← inRange (Buffer.write st.1 (st.2 * primaryEntrySize) key)
  let value ← cStr e.2 primaryValueSize
  let buffer ← inRange (Buffer.write buffer (st.2 * primaryEntrySize + chunkHashSize) value)
  return (buffer, st.2 + 1)

/-- `PersistPrimaryIndex`. -/
def persistPrimaryIndex (junk : Nat → UInt8) (m : PrimaryIndex) (s : Sealed) :
    Except Fault Sealed := do
  let primaryIndexSize := m.entries.length * primaryEntrySize % 2 ^ 32
  let r ← m.entries.foldlM packPrimary (malloc junk primaryIndexSize, 0)
  let s ← openOrExit .primaryIndex "EcallExtremeBinIndex: cannot init the sealed file." s
  return ocallCloseWriteSealedFile (writeBufferToFile r.1 s)

/-- The loop body of `LoadPrimaryIndex`. -/
def insertPrimary (buffer : Bytes) (m : PrimaryIndex) (i : Nat) : Except Fault PrimaryIndex := do
  let key ← inRange (Buffer.read buffer (i * primaryEntrySize) chunkHashSize)
  let value ← inRange (Buffer.read buffer (i * primaryEntrySize + chunkHashSize) primaryValueSize)
  return insertNew m key value

/-- `LoadPrimaryIndex`. -/
def loadPrimaryIndex (junk : Nat → UInt8) (s : Sealed) : Except Fault (PrimaryIndex × Sealed) := do
  let opened := ocallInitReadSealedFile .primaryIndex s
  if opened.1 = 0 then return (∅, opened.2)
  let r ← readFileToBuffer (malloc junk opened.1) opened.1 opened.2
  let s := ocallCloseReadSealedFile r.2
  let m ← (List.range (opened.1 / primaryEntrySize)).foldlM (insertPrimary r.1) ∅
  return (m, s)

/-! ## `EcallSparseIndex` -/

/-- `hookIndex_`: a fingerprint and the IDs of its manifests. -/
abbrev HookIndex := AList (fun _ : Bytes => List Bytes)

/-- The inner loop body of `PersistHookIndex`. -/
def packID (st : Bytes × Nat) (id : Bytes) : Except Fault (Bytes × Nat) := do
  let id ← cStr id segmentIDLength
  pack st id

/-- The loop body of `PersistHookIndex`. -/
def packHook (st : Bytes × Nat) (e : Sigma fun _ : Bytes => List Bytes) :
    Except Fault (Bytes × Nat) := do
  let key ← cStr e.1 chunkHashSize
  let st ← pack st key
  let st ← pack st (encode 8 e.2.length)
  e.2.foldlM packID st

/-- `PersistHookIndex`. -/
def persistHookIndex (junk : Nat → UInt8) (m : HookIndex) (s : Sealed) :
    Except Fault Sealed := do
  let hookIndexSize := m.entries.foldl (fun size e =>
    (size + chunkHashSize + 8 + e.2.length * segmentIDLength) % 2 ^ 32) 0
  let r ← m.entries.foldlM packHook (malloc junk hookIndexSize, 0)
  let s ← openOrExit .sparseIndex "EcallSparseIndex: cannot init the sealed file." s
  return ocallCloseWriteSealedFile (writeBufferToFile r.1 s)

/-- The inner loop of `LoadHookIndex`: `n` IDs from the offset on. -/
def readIDs (buffer : Bytes) (offset : Nat) : Nat → Except Fault (List Bytes)
  | 0 => .ok []
  | n+1 => do
      let id ← inRange (Buffer.read buffer offset segmentIDLength)
      let rest ← readIDs buffer (offset + segmentIDLength) n
      return id :: rest

/-- The parse loop of `LoadHookIndex`.  Every round moves on by the size of a
fingerprint at least, so as many rounds as there are bytes are enough. -/
def parseHooks (buffer : Bytes) (sealedDataSize : Nat) :
    Nat → Nat → HookIndex → Except Fault HookIndex
  | 0, _, _ => .error .outOfRange
  | fuel+1, offset, m =>
      if offset = sealedDataSize then .ok m
      else do
        let key ← inRange (Buffer.read buffer offset chunkHashSize)
        let word ← inRange (Buffer.read buffer (offset + chunkHashSize) 8)
        let manifestListSize := decode word
        let ids ← readIDs buffer (offset + chunkHashSize + 8) manifestListSize
        parseHooks buffer sealedDataSize fuel
          (offset + chunkHashSize + 8 + manifestListSize * segmentIDLength) (insertNew m key ids)

/-- `LoadHookIndex`. -/
def loadHookIndex (junk : Nat → UInt8) (s : Sealed) : Except Fault (HookIndex × Sealed) := do
  let opened := ocallInitReadSealedFile .sparseIndex s
  if opened.1 = 0 then return (∅, opened.2)
  let r ← readFileToBuffer (malloc junk opened.1) opened.1 opened.2
  let s := ocallCloseReadSealedFile r.2
  let m ← parseHooks r.1 opened.1 (opened.1 + 1) 0 ∅
  return (m, s)

/-! ## `EcallInEnclaveIndex` -/

/-- `insideIndexObj_`. -/
abbrev InsideIndex := AList (fun _ : Bytes => Bytes)

/-- The size of an item in the file. -/
def insideItemSize : Nat := chunkHashSize + recipeEntrySize

/-- The loop body of `PersistDedupIndex`: a full buffer is written and filled anew. -/
def packInside (maxBufferSize : Nat) (st : (Bytes × Nat) × Sealed)
    (e : Sigma fun _ : Bytes => Bytes) : Except Fault ((Bytes × Nat) × Sealed) := do
  let key ← cStr e.1 chunkHashSize
  let packed ← pack st.1 key
  let value ← cStr e.2 recipeEntrySize
  let packed ← pack packed value
  return if packed.2 = maxBufferSize then
      ((packed.1, 0), writeBufferToFile (packed.1.take packed.2) st.2)
    else (packed, st.2)

/-- `PersistDedupIndex` of the in-enclave index. -/
def persistInsideIndex (junk : Nat → UInt8) (sendChunkBatchSize : Nat) (m : InsideIndex)
    (s : Sealed) : Except Fault Sealed := do
  let s ← openOrExit .baselineIndex "EcallInEnclaveIndex: cannot init the index sealed file." s
  let maxBufferSize := sendChunkBatchSize * insideItemSize
  let s := writeBufferToFile (encode 8 m.entries.length) s
  let r ← m.entries.foldlM (packInside maxBufferSize) ((malloc junk maxBufferSize, 0), s)
  let s := if r.1.2 ≠ 0 then writeBufferToFile (r.1.1.take r.1.2) r.2 else r.2
  return ocallCloseWriteSealedFile s

/-- The loops over the items of a buffer, from the offset on. -/
def insertItems (buffer : Bytes) : Nat → Nat → InsideIndex → Except Fault InsideIndex
  | _, 0, m => .ok m
  | offset, n+1, m => do
      let key ← inRange (Buffer.read buffer offset chunkHashSize)
      let value ← inRange (Buffer.read buffer (offset + chunkHashSize) recipeEntrySize)
      insertItems buffer (offset + insideItemSize) n (insertNew m key value)

/-- The loop body of `LoadDedupIndex` over the whole batches. -/
def loadBatch (sendChunkBatchSize : Nat) (st : Bytes × InsideIndex × Sealed) :
    Except Fault (Bytes × InsideIndex × Sealed) := do
  let r ← readFileToBuffer st.1 (sendChunkBatchSize * insideItemSize) st.2.2
  let m ← insertItems r.1 0 sendChunkBatchSize st.2.1
  return (r.1, m, r.2)

/-- The last, incomplete batch: the read asks for a whole one. -/
def loadRemaining (maxBufferSize remainItemNum : Nat) (buffer : Bytes) (m : InsideIndex)
    (s : Sealed) : Except Fault (InsideIndex × Sealed) :=
  if remainItemNum ≠ 0 then do
    let r ← readFileToBuffer buffer maxBufferSize s
    let m ← insertItems r.1 0 remainItemNum m
    return (m, r.2)
  else .ok (m, s)

/-- `LoadDedupIndex` of the in-enclave index. -/
def loadInsideIndex (junk : Nat → UInt8) (sendChunkBatchSize : Nat) (s : Sealed) :
    Except Fault (InsideIndex × Sealed) := do
  let opened := ocallInitReadSealedFile .baselineIndex s
  if opened.1 = 0 then return (∅, opened.2)
  let head ← readFileToBuffer (malloc junk 8) 8 opened.2
  let itemNum := decode head.1
  let maxBufferSize := sendChunkBatchSize * insideItemSize
  let expectReadBatchNum := itemNum / sendChunkBatchSize
  let r ← (List.range expectReadBatchNum).foldlM (fun st _ => loadBatch sendChunkBatchSize st)
    (malloc junk maxBufferSize, ∅, head.2)
  let remainItemNum := itemNum - r.2.1.entries.length
  let q ← loadRemaining maxBufferSize remainItemNum r.1 r.2.1 r.2.2
  let s := ocallCloseReadSealedFile q.2
  if q.1.entries.length ≠ itemNum then
    ocallSGXExitError "EcallInEnclaveIndex: load the index error."
  else return (q.1, s)

/-! ## `EcallFreqIndex` -/

/-- A row of counters as it lies in memory. -/
def rowBytes (sketch : CMSketch) (i : Nat) : Bytes :=
  (List.range sketch.width).flatMap fun j => encode 4 (sketch.counterArray i j)

/-- The `j`-th counter of a row read back. -/
def rowCounter (row : Bytes) (j : Nat) : Nat := decode ((row.drop (4 * j)).take 4)

/-- `HeapItem_t` as it lies in memory. -/
def HeapItem.toBytes (item : HeapItem) : Bytes :=
  item.address.toBytes ++ encode 4 item.chunkFreq ++ encode 4 item.idx

/-- A `HeapItem_t` copied from a buffer. -/
def HeapItem.ofBytes (bs : Bytes) : HeapItem where
  address := RecipeEntry.ofBytes (bs.take recipeEntrySize)
  chunkFreq := decode ((bs.drop recipeEntrySize).take 4)
  idx := decode ((bs.drop (recipeEntrySize + 4)).take 4)

/-- The loop body of `PersistDedupIndex` over the heap. -/
def packHeapItem (h : EntryHeap) (st : Bytes × Nat) (k : Bytes) : Except Fault (Bytes × Nat) := do
  let item ← inRange (h.index.lookup k)
  let key ← cStr k chunkHashSize
  let st ← pack st key
  pack st item.toBytes

/-- `PersistDedupIndex` of the frequency index. -/
def persistFreqIndex (junk : Nat → UInt8) (idx : FreqIndex) (s : Sealed) :
    Except Fault Sealed := do
  let s ← openOrExit .sketch "EcallFreqIndex: cannot init the sketch sealed file." s
  let s := (List.range idx.cmSketch.depth).foldl
    (fun s i => writeBufferToFile (rowBytes idx.cmSketch i) s) s
  let s := ocallCloseWriteSealedFile s
  let s ← openOrExit .freqIndex "EcallFreqIndex: cannot init the heap sealed file." s
  let heap := idx.insideDedupIndex.heap
  let requiredBufferSize := 8 + heap.length * (chunkHashSize + heapItemSize)
  let st ← pack (malloc junk requiredBufferSize, 0) (encode 8 heap.length)
  let st ← heap.foldlM (packHeapItem idx.insideDedupIndex) st
  return ocallCloseWriteSealedFile (writeBufferToFile st.1 s)

/-- The loop of `LoadDedupIndex` over the rows of the sketch, from row `i` on. -/
def loadRows (width : Nat) : Nat → Nat → (Nat → Nat → Nat) → Sealed →
    Except Fault ((Nat → Nat → Nat) × Sealed)
  | _, 0, counters, s => .ok (counters, s)
  | i, depth+1, counters, s => do
      let row := (List.range width).flatMap fun j => encode 4 (counters i j)
      let r ← readFileToBuffer row (4 * width) s
      loadRows width (i + 1) depth (Function.update counters i (rowCounter r.1)) r.2

/-- The loop of `LoadDedupIndex` over the items of the heap. -/
def loadItems (buffer : Bytes) : Nat → Nat → EntryHeap → Except Fault EntryHeap
  | _, 0, h => .ok h
  | offset, n+1, h => do
      let key ← inRange (Buffer.read buffer offset chunkHashSize)
      let item ← inRange (Buffer.read buffer (offset + chunkHashSize) heapItemSize)
      loadItems buffer (offset + chunkHashSize + heapItemSize) n
        { heap := h.heap ++ [key], index := insertNew h.index key (HeapItem.ofBytes item) }

/-- `LoadDedupIndex` of the frequency index, into the index `idx` just constructed. -/
def loadFreqIndex (junk : Nat → UInt8) (idx : FreqIndex) (s : Sealed) :
    Except Fault (FreqIndex × Sealed) := do
  let opened := ocallInitReadSealedFile .sketch s
  if opened.1 = 0 then return (idx, opened.2)
  let rows ← loadRows idx.cmSketch.width 0 idx.cmSketch.depth idx.cmSketch.counterArray opened.2
  let idx := { idx with cmSketch := { idx.cmSketch with counterArray := rows.1 } }
  let s := ocallCloseReadSealedFile rows.2
  let opened := ocallInitReadSealedFile .freqIndex s
  if opened.1 = 0 then return (idx, opened.2)
  let r ← readFileToBuffer (malloc junk opened.1) opened.1 opened.2
  let word ← inRange (Buffer.read r.1 0 8)
  let heap ← loadItems r.1 8 (decode word) idx.insideDedupIndex
  return ({ idx with insideDedupIndex := heap }, ocallCloseReadSealedFile r.2)

/-! ## Copying and rebuilding -/

theorem openOrExit_eq {s : Sealed} (h : Closed s) (name : SealedName) (message : String) :
    openOrExit name message s = .ok (s.writing name []) := by
  simp [openOrExit, ocallInitWriteSealedFile_eq h]

theorem cStr_eq {str : Bytes} {n : Nat} (h : str.length = n) : cStr str n = .ok str := by
  have hread : Buffer.read ([] ++ (str ++ [])) ([] : Bytes).length str.length = some str :=
    Buffer.read_mid [] str []
  simp only [List.nil_append, List.append_nil, List.length_nil, h] at hread
  rw [cStr, hread]
  rfl

/-- The buffer begins with what was packed, and the offset stands behind it. -/
structure Packed (size : Nat) (done : Bytes) (st : Bytes × Nat) : Prop where
  filled : Buffer.Filled size done st.1
  offset : st.2 = done.length

theorem packed_malloc (junk : Nat → UInt8) (n : Nat) : Packed n [] (malloc junk n, 0) where
  filled := ⟨length_malloc junk n, List.nil_prefix⟩
  offset := rfl

theorem Packed.pack {size : Nat} {done : Bytes} {st : Bytes × Nat} (h : Packed size done st)
    (data : Bytes) (hfit : done.length + data.length ≤ size) :
    ∃ st', Debe.pack st data = .ok st' ∧ Packed size (done ++ data) st' := by
  obtain ⟨buffer, hwrite, hfilled⟩ := h.filled.write data hfit
  refine ⟨(buffer, st.2 + data.length), ?_, hfilled, ?_⟩
  · rw [Debe.pack, h.offset, hwrite]
    rfl
  · rw [h.offset, List.length_append]

/-- **A loop of copies.**  A body that packs the image of its element packs the images
of all. -/
theorem Packed.loop {α : Type} {size : Nat} {done : Bytes} {st : Bytes × Nat}
    (h : Packed size done st) (image : α → Bytes)
    (body : Bytes × Nat → α → Except Fault (Bytes × Nat)) (l : List α)
    (hfit : (done ++ l.flatMap image).length ≤ size)
    (hbody : ∀ a ∈ l, ∀ done st, Packed size done st → (done ++ image a).length ≤ size →
      ∃ st', body st a = .ok st' ∧ Packed size (done ++ image a) st') :
    ∃ st', l.foldlM body st = .ok st' ∧ Packed size (done ++ l.flatMap image) st' := by
  refine Loops.foldlM_ok (P := fun pre st => Packed size (done ++ pre.flatMap image) st)
    (by simpa using h) ?_
  intro pre a rest st hcut hst
  have hsplit : l.flatMap image = pre.flatMap image ++ (image a ++ rest.flatMap image) := by
    rw [hcut, List.flatMap_append, List.flatMap_cons]
  have hroom : (done ++ pre.flatMap image ++ image a).length ≤ size := by
    rw [hsplit] at hfit
    simp only [List.length_append] at hfit ⊢
    omega
  obtain ⟨st', hrun, hst'⟩ := hbody a (by simp [hcut]) _ st hst hroom
  refine ⟨st', hrun, ?_⟩
  simpa [List.flatMap_append, List.append_assoc] using hst'

/-- The map that a loader builds from the entries it reads. -/
def rebuild {β : Type} (l : List (Sigma fun _ : Bytes => β)) (m : AList (fun _ : Bytes => β)) :
    AList (fun _ : Bytes => β) :=
  l.foldl (fun m e => insertNew m e.1 e.2) m

/-- New keys go in front. -/
theorem rebuild_entries {β : Type} (l : List (Sigma fun _ : Bytes => β))
    (m : AList (fun _ : Bytes => β)) (hnew : (l ++ m.entries).NodupKeys) :
    (rebuild l m).entries = l.reverse ++ m.entries := by
  induction l generalizing m with
  | nil => rfl
  | cons e l ih =>
      obtain ⟨k, v⟩ := e
      have hperm : (⟨k, v⟩ :: l ++ m.entries).Perm (l ++ ⟨k, v⟩ :: m.entries) := by
        exact (List.perm_middle (a := (⟨k, v⟩ : Sigma fun _ : Bytes => β))).symm
      have hnodup : (l ++ ⟨k, v⟩ :: m.entries).NodupKeys := (List.perm_nodupKeys hperm).mp hnew
      have hnot : k ∉ m := by
        intro hk
        have hcons : ((⟨k, v⟩ : Sigma fun _ : Bytes => β) :: (l ++ m.entries)).NodupKeys := hnew
        rw [List.nodupKeys_cons] at hcons
        apply hcons.1
        rw [List.keys_append]
        exact List.mem_append_right _ hk
      have hinsert : (insertNew m k v).entries = ⟨k, v⟩ :: m.entries := by
        rw [insertNew, if_neg hnot, AList.entries_insert_of_notMem hnot]
      rw [rebuild, List.foldl_cons]
      change (rebuild l (insertNew m k v)).entries = _
      rw [ih _ (by rw [hinsert]; exact hnodup), hinsert]
      simp

/-- A map built from entries with different keys holds just these entries. -/
theorem lookup_rebuild {β : Type} {l : List (Sigma fun _ : Bytes => β)} (hl : l.NodupKeys)
    (k : Bytes) : (rebuild l (∅ : AList (fun _ : Bytes => β))).lookup k = l.dlookup k := by
  have hentries : (rebuild l (∅ : AList (fun _ : Bytes => β))).entries = l.reverse := by
    rw [rebuild_entries l ∅ (by rw [AList.empty_entries, List.append_nil]; exact hl),
      AList.empty_entries, List.append_nil]
  rw [AList.lookup, hentries]
  exact (List.perm_dlookup k hl (List.reverse_perm l).symm).symm

/-! ## The primary index -/

/-- Keys and values have their sizes, and the file stays far below what 32 bits count:
the enclave's heap has 128 MiB. -/
structure PrimaryIndex.Sealable (m : PrimaryIndex) : Prop where
  sizes : ∀ e ∈ m.entries, e.1.length = chunkHashSize ∧ e.2.length = primaryValueSize
  small : m.entries.length * primaryEntrySize < 2 ^ 32

/-- The image of an entry. -/
def entryImage (e : Sigma fun _ : Bytes => Bytes) : Bytes := e.1 ++ e.2

/-- The entries of a map, one behind the other. -/
def entryImages (entries : List (Sigma fun _ : Bytes => Bytes)) : Bytes :=
  entries.flatMap entryImage

theorem entryImages_append (es es' : List (Sigma fun _ : Bytes => Bytes)) :
    entryImages (es ++ es') = entryImages es ++ entryImages es' := List.flatMap_append

/-- Entries of one size. -/
theorem length_entryImage {entries : List (Sigma fun _ : Bytes => Bytes)} {k v : Nat}
    (h : ∀ e ∈ entries, e.1.length = k ∧ e.2.length = v) :
    ∀ e ∈ entries, (entryImage e).length = k + v := by
  intro e he
  rw [entryImage, List.length_append, (h e he).1, (h e he).2]

theorem length_entryImages {entries : List (Sigma fun _ : Bytes => Bytes)} {k v : Nat}
    (h : ∀ e ∈ entries, e.1.length = k ∧ e.2.length = v) :
    (entryImages entries).length = entries.length * (k + v) :=
  Blocks.length_flatMap (length_entryImage h)

/-- One entry of the primary index is packed behind the others. -/
theorem packPrimary_filled {size : Nat} {pre : List (Sigma fun _ : Bytes => Bytes)}
    {e : Sigma fun _ : Bytes => Bytes} {buffer : Bytes}
    (hsizes : ∀ x ∈ pre, x.1.length = chunkHashSize ∧ x.2.length = primaryValueSize)
    (hkey : e.1.length = chunkHashSize) (hvalue : e.2.length = primaryValueSize)
    (h : Buffer.Filled size (entryImages pre) buffer)
    (hfit : (entryImages (pre ++ [e])).length ≤ size) :
    ∃ buffer', packPrimary (buffer, pre.length) e = .ok (buffer', (pre ++ [e]).length) ∧
      Buffer.Filled size (entryImages (pre ++ [e])) buffer' := by
  have hlen : (entryImages pre).length = pre.length * primaryEntrySize :=
    length_entryImages hsizes
  have hlast : entryImages (pre ++ [e]) = entryImages pre ++ e.1 ++ e.2 := by
    rw [entryImages_append, List.append_assoc]
    simp [entryImages, entryImage]
  rw [hlast, List.length_append, List.length_append] at hfit
  obtain ⟨buffer₁, hwrite₁, hfilled₁⟩ := h.write e.1 (Nat.le_of_add_right_le hfit)
  obtain ⟨buffer₂, hwrite₂, hfilled₂⟩ := hfilled₁.write e.2
    (by rw [List.length_append]; exact hfit)
  rw [List.length_append, hlen, hkey] at hwrite₂
  rw [hlen] at hwrite₁
  refine ⟨buffer₂, ?_, hlast ▸ hfilled₂⟩
  simp only [packPrimary, cStr_eq hkey, cStr_eq hvalue, hwrite₁, hwrite₂, inRange, bind,
    Except.bind, pure, Except.pure, List.length_append, List.length_singleton]

/-- **`PersistPrimaryIndex`** writes the entries one behind the other. -/
theorem persistPrimaryIndex_eq {m : PrimaryIndex} (hm : m.Sealable) {s : Sealed} (hs : Closed s)
    (junk : Nat → UInt8) :
    persistPrimaryIndex junk m s = .ok (s.put .primaryIndex (entryImages m.entries)) := by
  have hsize : m.entries.length * primaryEntrySize % 2 ^ 32 = (entryImages m.entries).length := by
    rw [length_entryImages hm.sizes]
    exact Nat.mod_eq_of_lt hm.small
  have hstart : Buffer.Filled (entryImages m.entries).length (entryImages [])
      (malloc junk (entryImages m.entries).length) := ⟨length_malloc _ _, List.nil_prefix⟩
  obtain ⟨r, hloop, hfilled, -⟩ := Loops.foldlM_ok (f := packPrimary) (l := m.entries)
    (s := (malloc junk (entryImages m.entries).length, 0))
    (P := fun pre st => Buffer.Filled (entryImages m.entries).length (entryImages pre) st.1 ∧
      st.2 = pre.length) ⟨hstart, rfl⟩ (by
      rintro pre e rest ⟨buffer, i⟩ hcut ⟨hfilled, hi⟩
      obtain rfl : i = pre.length := hi
      obtain ⟨hkey, hvalue⟩ := hm.sizes e (by simp [hcut])
      have hfit : (entryImages (pre ++ [e])).length ≤ (entryImages m.entries).length := by
        have hsplit : entryImages m.entries = entryImages (pre ++ [e]) ++ entryImages rest := by
          rw [← entryImages_append, List.append_assoc, List.singleton_append, hcut]
        rw [hsplit, List.length_append]
        exact Nat.le_add_right _ _
      obtain ⟨buffer', hrun, hfilled'⟩ := packPrimary_filled
        (fun x hx => hm.sizes x (by simp [hcut, hx])) hkey hvalue hfilled hfit
      exact ⟨_, hrun, hfilled', rfl⟩)
  have hfull : r.1 = entryImages m.entries := hfilled.eq rfl
  unfold persistPrimaryIndex
  dsimp only
  rw [hsize, hloop, openOrExit_eq hs]
  simp only [bind, Except.bind, pure, Except.pure]
  rw [writeBufferToFile_writing, List.nil_append, hfull, ocallCloseWriteSealedFile_writing hs]

/-- A loader has returned `x`: it has read files only, and both streams are closed. -/
def Loaded {α : Type} (s : Sealed) (load : Except Fault (α × Sealed)) (x : α) : Prop :=
  ∃ st, load = .ok (x, s.reading st) ∧ st.file = none

/-- Without the file there is nothing to load. -/
theorem loadPrimaryIndex_none {s : Sealed} (hs : Closed s) (hf : s.files .primaryIndex = none)
    (junk : Nat → UInt8) : Loaded s (loadPrimaryIndex junk s) ∅ := by
  obtain ⟨st, hopen, hst⟩ := ocallInitReadSealedFile_none hs hf
  refine ⟨st, ?_, hst⟩
  simp only [loadPrimaryIndex, hopen, if_true]
  rfl

/-- Both parts of an entry lie in the buffer. -/
theorem insertPrimary_ok {buffer : Bytes} (m : PrimaryIndex) {i : Nat}
    (hi : i < buffer.length / primaryEntrySize) : ∃ m', insertPrimary buffer m i = .ok m' := by
  have hend : (i + 1) * primaryEntrySize ≤ buffer.length :=
    (Nat.mul_le_mul_right _ hi).trans (Nat.div_mul_le_self _ _)
  rw [Nat.succ_mul] at hend
  have hvalue : i * primaryEntrySize + chunkHashSize + primaryValueSize ≤ buffer.length := by
    rw [Nat.add_assoc]
    exact hend
  have hkey : i * primaryEntrySize + chunkHashSize ≤ buffer.length :=
    (Nat.le_add_right _ _).trans hvalue
  refine ⟨insertNew m ((buffer.drop (i * primaryEntrySize)).take chunkHashSize)
    ((buffer.drop (i * primaryEntrySize + chunkHashSize)).take primaryValueSize), ?_⟩
  simp only [insertPrimary, Buffer.read, hkey, hvalue, if_true, inRange, bind, Except.bind, pure,
    Except.pure]

/-- **`LoadPrimaryIndex`** reads inside its buffer, whatever the file holds. -/
theorem loadPrimaryIndex_some {s : Sealed} (hs : Closed s) {f : Bytes}
    (hf : s.files .primaryIndex = some f) (hne : f ≠ []) (junk : Nat → UInt8) :
    ∃ m, Loaded s (loadPrimaryIndex junk s) m := by
  have hopen := ocallInitReadSealedFile_some hs hf
  have hsize : f.length ≠ 0 := fun h => hne (List.length_eq_zero_iff.mp h)
  obtain ⟨st, hread⟩ := readFileToBuffer_whole s f junk
  obtain ⟨st', hclose, hst'⟩ := ocallCloseReadSealedFile_reading s st
  obtain ⟨m, hloop, -⟩ := Loops.foldlM_ok (f := insertPrimary f)
    (l := List.range (f.length / primaryEntrySize)) (s := ∅) (P := fun _ _ => True) trivial (by
      intro pre i rest m hcut _
      have hmem : i ∈ List.range (f.length / primaryEntrySize) := by simp [hcut]
      obtain ⟨m', hrun⟩ := insertPrimary_ok m (List.mem_range.mp hmem)
      exact ⟨m', hrun, trivial⟩)
  refine ⟨m, st', ?_, hst'⟩
  simp only [loadPrimaryIndex, hopen, hsize, if_false, hread, hclose, hloop, bind, Except.bind,
    pure, Except.pure]

/-! ## The hook index -/

/-- The image of a hook. -/
def hookImage (e : Sigma fun _ : Bytes => List Bytes) : Bytes :=
  e.1 ++ encode 8 e.2.length ++ e.2.flatten

/-- The sealed file of a hook index. -/
def hookImages (entries : List (Sigma fun _ : Bytes => List Bytes)) : Bytes :=
  entries.flatMap hookImage

/-- Fingerprints and IDs have their sizes, and the file stays below what 32 bits count. -/
structure HookIndex.Sealable (m : HookIndex) : Prop where
  keys : ∀ e ∈ m.entries, e.1.length = chunkHashSize
  ids : ∀ e ∈ m.entries, ∀ id ∈ e.2, id.length = segmentIDLength
  small : (hookImages m.entries).length < 2 ^ 32

theorem length_flatten_ids {ids : List Bytes} (h : ∀ id ∈ ids, id.length = segmentIDLength) :
    ids.flatten.length = ids.length * segmentIDLength := by
  induction ids with
  | nil => simp
  | cons id ids ih =>
      rw [List.flatten_cons, List.length_append, h id List.mem_cons_self,
        ih fun x hx => h x (List.mem_cons_of_mem _ hx), List.length_cons, Nat.succ_mul,
        Nat.add_comm]

theorem length_hookImage {e : Sigma fun _ : Bytes => List Bytes} (hkey : e.1.length = chunkHashSize)
    (hids : ∀ id ∈ e.2, id.length = segmentIDLength) :
    (hookImage e).length = chunkHashSize + 8 + e.2.length * segmentIDLength := by
  rw [hookImage, List.length_append, List.length_append, hkey, length_encode,
    length_flatten_ids hids]

/-- The 32-bit sum is the size of the file, up to what 32 bits hold. -/
theorem hookIndexSize_eq {entries : List (Sigma fun _ : Bytes => List Bytes)}
    (hkeys : ∀ e ∈ entries, e.1.length = chunkHashSize)
    (hids : ∀ e ∈ entries, ∀ id ∈ e.2, id.length = segmentIDLength) (size : Nat) :
    entries.foldl (fun size e =>
      (size + chunkHashSize + 8 + e.2.length * segmentIDLength) % 2 ^ 32) (size % 2 ^ 32) =
      (size + (hookImages entries).length) % 2 ^ 32 := by
  induction entries generalizing size with
  | nil => simp [hookImages]
  | cons e entries ih =>
      have hlen := length_hookImage (hkeys e List.mem_cons_self) (hids e List.mem_cons_self)
      have hcons : hookImages (e :: entries) = hookImage e ++ hookImages entries := rfl
      have hstep : (size % 2 ^ 32 + chunkHashSize + 8 + e.2.length * segmentIDLength) % 2 ^ 32 =
          (size + (hookImage e).length) % 2 ^ 32 := by
        rw [hlen, Nat.add_assoc, Nat.add_assoc, Nat.mod_add_mod]
        congr 1
        omega
      rw [List.foldl_cons, hstep, ih (fun x hx => hkeys x (List.mem_cons_of_mem _ hx))
        (fun x hx => hids x (List.mem_cons_of_mem _ hx)), hcons, List.length_append,
        Nat.add_assoc]

theorem packHook_packed {size : Nat} {done : Bytes} {st : Bytes × Nat}
    {e : Sigma fun _ : Bytes => List Bytes} (hkey : e.1.length = chunkHashSize)
    (hids : ∀ id ∈ e.2, id.length = segmentIDLength) (h : Packed size done st)
    (hfit : (done ++ hookImage e).length ≤ size) :
    ∃ st', packHook st e = .ok st' ∧ Packed size (done ++ hookImage e) st' := by
  have hlen := length_hookImage hkey hids
  rw [List.length_append, hlen] at hfit
  obtain ⟨st₁, hpack₁, h₁⟩ := h.pack e.1 (by rw [hkey]; omega)
  obtain ⟨st₂, hpack₂, h₂⟩ := h₁.pack (encode 8 e.2.length)
    (by rw [List.length_append, length_encode, hkey]; omega)
  have hroom : (done ++ e.1 ++ encode 8 e.2.length ++ e.2.flatMap id).length ≤ size := by
    rw [List.flatMap_id, List.length_append, List.length_append, List.length_append, hkey,
      length_encode, length_flatten_ids hids]
    omega
  obtain ⟨st₃, hpack₃, h₃⟩ := h₂.loop id packID e.2 hroom (by
    intro a ha done st hst hfit
    obtain ⟨st', hrun, hst'⟩ := hst.pack a (by simpa using hfit)
    exact ⟨st', by simp only [packID, cStr_eq (hids a ha), bind, Except.bind, hrun], hst'⟩)
  refine ⟨st₃, ?_, ?_⟩
  · simp only [packHook, cStr_eq hkey, hpack₁, hpack₂, hpack₃, bind, Except.bind]
  · rw [List.flatMap_id] at h₃
    simpa [hookImage, List.append_assoc] using h₃

/-- **`PersistHookIndex`** writes the hooks one behind the other. -/
theorem persistHookIndex_eq {m : HookIndex} (hm : m.Sealable) {s : Sealed} (hs : Closed s)
    (junk : Nat → UInt8) :
    persistHookIndex junk m s = .ok (s.put .sparseIndex (hookImages m.entries)) := by
  have hsize : m.entries.foldl (fun size e =>
      (size + chunkHashSize + 8 + e.2.length * segmentIDLength) % 2 ^ 32) 0 =
      (hookImages m.entries).length := by
    have hsum := hookIndexSize_eq hm.keys hm.ids 0
    rwa [Nat.zero_mod, Nat.zero_add, Nat.mod_eq_of_lt hm.small] at hsum
  obtain ⟨r, hloop, hpacked⟩ := (packed_malloc junk (hookImages m.entries).length).loop
    hookImage packHook m.entries le_rfl
    (fun e he _ _ => packHook_packed (hm.keys e he) (hm.ids e he))
  have hfull : r.1 = hookImages m.entries := hpacked.filled.eq rfl
  unfold persistHookIndex
  dsimp only
  rw [hsize, hloop, openOrExit_eq hs]
  simp only [bind, Except.bind, pure, Except.pure]
  rw [writeBufferToFile_writing, List.nil_append, hfull, ocallCloseWriteSealedFile_writing hs]

/-- The part `b` of a buffer, at its offset. -/
theorem read_at {buffer a b c : Bytes} {offset n : Nat} (h : buffer = a ++ (b ++ c))
    (ha : a.length = offset) (hb : b.length = n) :
    inRange (Buffer.read buffer offset n) = .ok b := by
  rw [h, ← ha, ← hb, Buffer.read_mid]
  rfl

theorem readIDs_eq {ids : List Bytes} (hids : ∀ id ∈ ids, id.length = segmentIDLength)
    {buffer a c : Bytes} {offset : Nat} (h : buffer = a ++ (ids.flatten ++ c))
    (ha : a.length = offset) : readIDs buffer offset ids.length = .ok ids := by
  induction ids generalizing a offset with
  | nil => rfl
  | cons id ids ih =>
      have hid := hids id List.mem_cons_self
      have hfirst : buffer = a ++ (id ++ (ids.flatten ++ c)) := by simpa using h
      have hmore : buffer = (a ++ id) ++ (ids.flatten ++ c) := by simpa using h
      have hread := read_at hfirst ha hid
      have hrest := ih (fun x hx => hids x (List.mem_cons_of_mem _ hx)) hmore
        (by rw [List.length_append, ha, hid])
      simp only [List.length_cons, readIDs, hread, hrest, bind, Except.bind, pure, Except.pure]

/-- Every hook takes at least one byte. -/
theorem length_le_hookImages {entries : List (Sigma fun _ : Bytes => List Bytes)}
    (hkeys : ∀ e ∈ entries, e.1.length = chunkHashSize) :
    entries.length ≤ (hookImages entries).length := by
  induction entries with
  | nil => simp
  | cons e entries ih =>
      have hkey := hkeys e List.mem_cons_self
      have hrest := ih fun x hx => hkeys x (List.mem_cons_of_mem _ hx)
      have hcons : hookImages (e :: entries) = hookImage e ++ hookImages entries := rfl
      have hpos : 1 ≤ (hookImage e).length := by
        rw [hookImage, List.length_append, List.length_append, hkey]
        unfold chunkHashSize
        omega
      rw [hcons, List.length_append, List.length_cons]
      omega

/-- The number of a hook's manifests fits its eight bytes. -/
theorem HookIndex.Sealable.counts {m : HookIndex} (hm : m.Sealable) :
    ∀ e ∈ m.entries, e.2.length < 2 ^ 64 := by
  intro e he
  have hle : (hookImage e).length ≤ (hookImages m.entries).length := by
    obtain ⟨pre, rest, hcut⟩ := List.append_of_mem he
    rw [hcut, hookImages, List.flatMap_append, List.flatMap_cons, List.length_append,
      List.length_append]
    omega
  have hlt := hle.trans_lt hm.small
  rw [length_hookImage (hm.keys e he) (hm.ids e he)] at hlt
  unfold segmentIDLength at hlt
  omega

/-- One round of the parse loop takes one hook: a key, a count and the IDs. -/
theorem parseHooks_round {e : Sigma fun _ : Bytes => List Bytes}
    (hkey : e.1.length = chunkHashSize) (hid : ∀ id ∈ e.2, id.length = segmentIDLength)
    (hcount : e.2.length < 2 ^ 64) {buffer a tail : Bytes} {offset : Nat}
    (h : buffer = a ++ hookImage e ++ tail) (ha : a.length = offset) (fuel : Nat)
    (m : HookIndex) :
    parseHooks buffer buffer.length (fuel + 1) offset m =
      parseHooks buffer buffer.length fuel (a ++ hookImage e).length (insertNew m e.1 e.2) := by
  have hkeyAt : buffer = a ++ (e.1 ++ (encode 8 e.2.length ++ (e.2.flatten ++ tail))) := by
    rw [h]
    simp [hookImage]
  have hcountAt : buffer = (a ++ e.1) ++ (encode 8 e.2.length ++ (e.2.flatten ++ tail)) := by
    simpa using hkeyAt
  have hidsAt : buffer = (a ++ e.1 ++ encode 8 e.2.length) ++ (e.2.flatten ++ tail) := by
    simpa using hkeyAt
  have hlen := congrArg List.length h
  have himage := length_hookImage hkey hid
  rw [List.length_append, List.length_append, ha, himage] at hlen
  have hmore : offset ≠ buffer.length := by
    have hpos : 0 < chunkHashSize := by decide
    omega
  have hword : decode (encode 8 e.2.length) = e.2.length := decode_encode_of_lt hcount
  have hread₁ := read_at hkeyAt ha hkey
  have hread₂ := read_at hcountAt (by rw [List.length_append, ha, hkey]) (length_encode 8 _)
  have hread₃ := readIDs_eq hid hidsAt
    (by rw [List.length_append, List.length_append, ha, hkey, length_encode])
  have hnext : (a ++ hookImage e).length =
      offset + chunkHashSize + 8 + e.2.length * segmentIDLength := by
    rw [List.length_append, ha, himage]
    omega
  rw [parseHooks, if_neg hmore, hnext]
  simp only [hread₁, hread₂, hword, hread₃, bind, Except.bind]

/-- **The parse loop** takes one hook after the other and stops behind the last. -/
theorem parseHooks_eq {entries : List (Sigma fun _ : Bytes => List Bytes)}
    (hkeys : ∀ e ∈ entries, e.1.length = chunkHashSize)
    (hids : ∀ e ∈ entries, ∀ id ∈ e.2, id.length = segmentIDLength)
    (hcounts : ∀ e ∈ entries, e.2.length < 2 ^ 64) {buffer a : Bytes} {offset fuel : Nat}
    (h : buffer = a ++ hookImages entries) (ha : a.length = offset)
    (hfuel : entries.length < fuel) (m : HookIndex) :
    parseHooks buffer buffer.length fuel offset m = .ok (rebuild entries m) := by
  induction entries generalizing a offset fuel m with
  | nil =>
      obtain ⟨fuel, rfl⟩ := Nat.exists_eq_succ_of_ne_zero (Nat.ne_of_gt hfuel)
      have hend : offset = buffer.length := by
        rw [h, ← ha]
        simp [hookImages]
      rw [parseHooks, if_pos hend]
      rfl
  | cons e entries ih =>
      obtain ⟨fuel, rfl⟩ : ∃ n, fuel = n + 1 := ⟨fuel - 1, by omega⟩
      have hrestAt : buffer = a ++ hookImage e ++ hookImages entries := by
        rw [h]
        simp [hookImages]
      rw [parseHooks_round (hkeys e List.mem_cons_self) (hids e List.mem_cons_self)
        (hcounts e List.mem_cons_self) hrestAt ha]
      exact ih (fun x hx => hkeys x (List.mem_cons_of_mem _ hx))
        (fun x hx => hids x (List.mem_cons_of_mem _ hx))
        (fun x hx => hcounts x (List.mem_cons_of_mem _ hx)) hrestAt rfl
        (Nat.lt_of_succ_lt_succ hfuel) (insertNew m e.1 e.2)

theorem loadHookIndex_none {s : Sealed} (hs : Closed s) (hf : s.files .sparseIndex = none)
    (junk : Nat → UInt8) : Loaded s (loadHookIndex junk s) ∅ := by
  obtain ⟨st, hopen, hst⟩ := ocallInitReadSealedFile_none hs hf
  refine ⟨st, ?_, hst⟩
  simp only [loadHookIndex, hopen, if_true]
  rfl

/-- **`LoadHookIndex`** rebuilds the index that was sealed. -/
theorem loadHookIndex_eq {m : HookIndex} (hm : m.Sealable) (hne : m.entries ≠ []) {s : Sealed}
    (hs : Closed s) (hf : s.files .sparseIndex = some (hookImages m.entries))
    (junk : Nat → UInt8) : Loaded s (loadHookIndex junk s) (rebuild m.entries ∅) := by
  have hopen := ocallInitReadSealedFile_some hs hf
  obtain ⟨st, hread⟩ := readFileToBuffer_whole s (hookImages m.entries) junk
  obtain ⟨st', hclose, hst'⟩ := ocallCloseReadSealedFile_reading s st
  have hle := length_le_hookImages hm.keys
  have hsize : (hookImages m.entries).length ≠ 0 := by
    have hpos := List.length_pos_iff.mpr hne
    omega
  have hparse := parseHooks_eq hm.keys hm.ids hm.counts (List.nil_append _).symm List.length_nil
    (Nat.lt_succ_of_le hle) ∅
  refine ⟨st', ?_, hst'⟩
  simp only [loadHookIndex, hopen, hsize, if_false, hread, hclose, hparse, bind, Except.bind,
    pure, Except.pure]

/-! ## The in-enclave index -/

/-- Fingerprints and addresses have their sizes, and the number of items fits its eight
bytes. -/
structure InsideIndex.Sealable (m : InsideIndex) : Prop where
  sizes : ∀ e ∈ m.entries, e.1.length = chunkHashSize ∧ e.2.length = recipeEntrySize
  count : m.entries.length < 2 ^ 64

/-- The sealed file of an in-enclave index. -/
def insideImages (entries : List (Sigma fun _ : Bytes => Bytes)) : Bytes :=
  encode 8 entries.length ++ entryImages entries

/-- In the middle of the loop: `out` has been written, fewer than a batch of items wait
in the buffer. -/
structure InsideLoop (s : Sealed) (head : Bytes) (batchSize : Nat)
    (pre : List (Sigma fun _ : Bytes => Bytes)) (st : (Bytes × Nat) × Sealed) (out rest : Bytes)
    (waiting : Nat) : Prop where
  images : entryImages pre = out ++ rest
  file : st.2 = s.writing .baselineIndex (head ++ out)
  packed : Packed (batchSize * insideItemSize) rest st.1
  length : rest.length = waiting * insideItemSize
  room : waiting < batchSize

theorem InsideLoop.step {s : Sealed} {head : Bytes} {batchSize : Nat}
    {pre : List (Sigma fun _ : Bytes => Bytes)} {st : (Bytes × Nat) × Sealed} {out rest : Bytes}
    {waiting : Nat} (h : InsideLoop s head batchSize pre st out rest waiting)
    {e : Sigma fun _ : Bytes => Bytes} (hkey : e.1.length = chunkHashSize)
    (hvalue : e.2.length = recipeEntrySize) :
    ∃ st' out' rest' waiting', packInside (batchSize * insideItemSize) st e = .ok st' ∧
      InsideLoop s head batchSize (pre ++ [e]) st' out' rest' waiting' := by
  have hitem : e.1.length + e.2.length = insideItemSize := by rw [hkey, hvalue]; rfl
  have hroom : (waiting + 1) * insideItemSize ≤ batchSize * insideItemSize :=
    Nat.mul_le_mul_right _ h.room
  have hlen := h.length
  rw [Nat.succ_mul] at hroom
  obtain ⟨st₁, hpack₁, h₁⟩ := h.packed.pack e.1 (by omega)
  obtain ⟨st₂, hpack₂, h₂⟩ := h₁.pack e.2 (by rw [List.length_append]; omega)
  have himages : entryImages (pre ++ [e]) = out ++ (rest ++ e.1 ++ e.2) := by
    rw [entryImages_append, h.images]
    simp [entryImages, entryImage]
  have hlen' : (rest ++ e.1 ++ e.2).length = (waiting + 1) * insideItemSize := by
    rw [List.length_append, List.length_append, Nat.succ_mul]
    omega
  have hrun : packInside (batchSize * insideItemSize) st e =
      .ok (if st₂.2 = batchSize * insideItemSize then
        ((st₂.1, 0), writeBufferToFile (st₂.1.take st₂.2) st.2) else (st₂, st.2)) := by
    simp only [packInside, cStr_eq hkey, cStr_eq hvalue, hpack₁, hpack₂, bind, Except.bind, pure,
      Except.pure]
  rw [hrun]
  by_cases hfull : waiting + 1 = batchSize
  · -- the buffer is full, and is written whole
    have hoffset : st₂.2 = batchSize * insideItemSize := by rw [h₂.offset, hlen', hfull]
    refine ⟨_, out ++ (rest ++ e.1 ++ e.2), [], 0, by rw [if_pos hoffset], ?_⟩
    refine ⟨by rw [himages, List.append_nil], ?_, ⟨h₂.filled.restart, rfl⟩, by simp, by omega⟩
    dsimp only
    rw [h.file, h₂.offset, h₂.filled.take, writeBufferToFile_writing, List.append_assoc]
  · have hoffset : st₂.2 ≠ batchSize * insideItemSize := by
      rw [h₂.offset, hlen']
      intro heq
      exact hfull (Nat.eq_of_mul_eq_mul_right (by decide) heq)
    refine ⟨_, out, rest ++ e.1 ++ e.2, waiting + 1, by rw [if_neg hoffset], ?_⟩
    have hlt := h.room
    exact ⟨himages, h.file, h₂, hlen', by omega⟩

/-- **`PersistDedupIndex`** writes the number of items and the items one behind the
other, whatever the batch size. -/
theorem persistInsideIndex_eq {m : InsideIndex} (hm : m.Sealable) {s : Sealed} (hs : Closed s)
    (junk : Nat → UInt8) {batchSize : Nat} (hpos : 0 < batchSize) :
    persistInsideIndex junk batchSize m s =
      .ok (s.put .baselineIndex (insideImages m.entries)) := by
  have hstart : InsideLoop s (encode 8 m.entries.length) batchSize []
      ((malloc junk (batchSize * insideItemSize), 0),
        s.writing .baselineIndex (encode 8 m.entries.length)) [] [] 0 :=
    ⟨rfl, by rw [List.append_nil], packed_malloc _ _, by simp, hpos⟩
  obtain ⟨r, hloop, out, rest, waiting, hend⟩ := Loops.foldlM_ok
    (f := packInside (batchSize * insideItemSize)) (l := m.entries)
    (P := fun pre st => ∃ out rest waiting,
      InsideLoop s (encode 8 m.entries.length) batchSize pre st out rest waiting)
    ⟨[], [], 0, hstart⟩ (by
      rintro pre e tail st hcut ⟨out, rest, waiting, h⟩
      obtain ⟨hkey, hvalue⟩ := hm.sizes e (by simp [hcut])
      obtain ⟨st', out', rest', waiting', hrun, h'⟩ := h.step hkey hvalue
      exact ⟨st', hrun, out', rest', waiting', h'⟩)
  have hall : insideImages m.entries = encode 8 m.entries.length ++ out ++ rest := by
    rw [insideImages, hend.images, List.append_assoc]
  have htail : (if r.1.2 ≠ 0 then writeBufferToFile (r.1.1.take r.1.2) r.2 else r.2) =
      s.writing .baselineIndex (insideImages m.entries) := by
    rw [hend.file, hall, hend.packed.offset, hend.packed.filled.take]
    split
    · rw [writeBufferToFile_writing]
    · rename_i hzero
      have hnil : rest = [] := List.length_eq_zero_iff.mp (not_not.mp hzero)
      rw [hnil, List.append_nil]
  unfold persistInsideIndex
  rw [openOrExit_eq hs]
  simp only [bind, Except.bind, pure, Except.pure]
  rw [writeBufferToFile_writing, List.nil_append, hloop]
  dsimp only
  rw [htail, ocallCloseWriteSealedFile_writing hs]

theorem insertItems_eq {l : List (Sigma fun _ : Bytes => Bytes)}
    (hsizes : ∀ e ∈ l, e.1.length = chunkHashSize ∧ e.2.length = recipeEntrySize)
    {buffer a c : Bytes} {offset : Nat} (h : buffer = a ++ (entryImages l ++ c))
    (ha : a.length = offset) (m : InsideIndex) :
    insertItems buffer offset l.length m = .ok (rebuild l m) := by
  induction l generalizing a offset m with
  | nil => rfl
  | cons e l ih =>
      obtain ⟨hkey, hvalue⟩ := hsizes e List.mem_cons_self
      have hkeyAt : buffer = a ++ (e.1 ++ (e.2 ++ (entryImages l ++ c))) := by
        rw [h]
        simp [entryImages, entryImage]
      have hvalueAt : buffer = (a ++ e.1) ++ (e.2 ++ (entryImages l ++ c)) := by
        simpa using hkeyAt
      have hrestAt : buffer = (a ++ e.1 ++ e.2) ++ (entryImages l ++ c) := by
        simpa using hkeyAt
      have hread₁ := read_at hkeyAt ha hkey
      have hread₂ := read_at hvalueAt (by rw [List.length_append, ha, hkey]) hvalue
      have hrest := ih (fun x hx => hsizes x (List.mem_cons_of_mem _ hx)) hrestAt
        (by rw [List.length_append, List.length_append, ha, hkey, hvalue, Nat.add_assoc])
        (insertNew m e.1 e.2)
      simp only [List.length_cons, insertItems, hread₁, hread₂, bind, Except.bind]
      exact hrest

theorem rebuild_append {β : Type} (l l' : List (Sigma fun _ : Bytes => β))
    (m : AList (fun _ : Bytes => β)) : rebuild (l ++ l') m = rebuild l' (rebuild l m) :=
  List.foldl_append

/-- What a read of a batch delivers behind the first `i` items: the next ones. -/
theorem delivered_items {m : InsideIndex} (hm : m.Sealable) {st : InStream UInt8} {i : Nat}
    (hpos : st.pos = 8 + i * insideItemSize) (batchSize : Nat) :
    delivered (insideImages m.entries) st (batchSize * insideItemSize) =
      entryImages ((m.entries.drop i).take batchSize) := by
  have hdrop : (insideImages m.entries).drop st.pos = entryImages (m.entries.drop i) := by
    have hhead : st.pos = (encode 8 m.entries.length).length + i * insideItemSize := by
      rw [hpos, length_encode]
    rw [hhead, insideImages, List.drop_length_add_append]
    exact Blocks.drop_flatMap (length_entryImage hm.sizes) i
  rw [delivered, hdrop]
  exact Blocks.take_flatMap
    (length_entryImage fun e he => hm.sizes e (List.mem_of_mem_drop he)) batchSize

/-- The items `l`, not more than a batch, are read to the front of the buffer. -/
theorem readItems {f : Bytes} {s : Sealed} {st : InStream UInt8} (hst : st.On f)
    {l : List (Sigma fun _ : Bytes => Bytes)}
    (hsizes : ∀ e ∈ l, e.1.length = chunkHashSize ∧ e.2.length = recipeEntrySize)
    {buffer : Bytes} {batchSize : Nat} (hbuffer : buffer.length = batchSize * insideItemSize)
    (hdelivered : delivered f st (batchSize * insideItemSize) = entryImages l)
    (hle : l.length ≤ batchSize) (m : InsideIndex) :
    ∃ st' buffer', st'.On f ∧ st'.pos = st.pos + l.length * insideItemSize ∧
      buffer'.length = batchSize * insideItemSize ∧
      readFileToBuffer buffer (batchSize * insideItemSize) (s.reading st) =
        .ok (buffer', s.reading st') ∧
      insertItems buffer' 0 l.length m = .ok (rebuild l m) := by
  have hlen : (entryImages l).length = l.length * insideItemSize := length_entryImages hsizes
  obtain ⟨st', hon, hpos, hread⟩ := readFileToBuffer_on (s := s) hst hbuffer.ge
  rw [hdelivered] at hpos hread
  have hroom : 0 + (entryImages l).length ≤ buffer.length := by
    rw [hlen, hbuffer, Nat.zero_add]
    exact Nat.mul_le_mul_right _ hle
  refine ⟨st', _, hon, by rw [hpos, hlen], ?_, hread, ?_⟩
  · rw [Buffer.length_overwrite hroom, hbuffer]
  · have hfront : Buffer.overwrite buffer 0 (entryImages l) =
        [] ++ (entryImages l ++ buffer.drop (0 + (entryImages l).length)) := rfl
    exact insertItems_eq hsizes hfront rfl m

/-- After `i` whole batches: their items are in the map, and the stream stands behind
them. -/
structure InsideLoaded (s : Sealed) (m : InsideIndex) (batchSize i : Nat)
    (st : Bytes × InsideIndex × Sealed) (stream : InStream UInt8) : Prop where
  buffer : st.1.length = batchSize * insideItemSize
  index : st.2.1 = rebuild (m.entries.take (i * batchSize)) ∅
  reading : st.2.2 = s.reading stream
  on : stream.On (insideImages m.entries)
  pos : stream.pos = 8 + i * batchSize * insideItemSize

theorem InsideLoaded.step {s : Sealed} {m : InsideIndex} (hm : m.Sealable) {batchSize i : Nat}
    {st : Bytes × InsideIndex × Sealed} {stream : InStream UInt8}
    (h : InsideLoaded s m batchSize i st stream)
    (hi : (i + 1) * batchSize ≤ m.entries.length) :
    ∃ st' stream', loadBatch batchSize st = .ok st' ∧
      InsideLoaded s m batchSize (i + 1) st' stream' := by
  rw [Nat.succ_mul] at hi
  let l := (m.entries.drop (i * batchSize)).take batchSize
  have hl : l.length = batchSize := by
    rw [List.length_take, List.length_drop]
    omega
  have hsizes : ∀ e ∈ l, e.1.length = chunkHashSize ∧ e.2.length = recipeEntrySize :=
    fun e he => hm.sizes e (List.mem_of_mem_drop (List.mem_of_mem_take he))
  obtain ⟨stream', buffer, hon, hpos, hbuffer, hread, hinsert⟩ := readItems (s := s) h.on hsizes
    h.buffer (delivered_items hm h.pos batchSize) hl.le st.2.1
  rw [hl] at hpos hinsert
  refine ⟨(buffer, rebuild l st.2.1, s.reading stream'), stream', ?_, hbuffer, ?_, rfl, hon, ?_⟩
  · simp only [loadBatch, h.reading, hread, hinsert, bind, Except.bind, pure, Except.pure]
  · dsimp only
    rw [h.index, ← rebuild_append, Nat.succ_mul, List.take_add]
  · rw [hpos, h.pos, Nat.succ_mul, Nat.add_mul, Nat.add_assoc]

/-- As many items as were inserted under different keys. -/
theorem length_rebuild {m : InsideIndex} (n : Nat) (hn : n ≤ m.entries.length) :
    (rebuild (m.entries.take n) ∅).entries.length = n := by
  have hkeys : (m.entries.take n ++ (∅ : InsideIndex).entries).NodupKeys := by
    rw [AList.empty_entries, List.append_nil]
    exact m.nodupKeys.sublist (List.take_sublist n m.entries)
  rw [rebuild_entries _ _ hkeys, AList.empty_entries, List.append_nil, List.length_reverse,
    List.length_take, Nat.min_eq_left hn]

/-- The items behind the whole batches, if there are any. -/
theorem loadRemaining_eq {s : Sealed} {m : InsideIndex} (hm : m.Sealable) {batchSize : Nat}
    (hpos : 0 < batchSize) {st : Bytes × InsideIndex × Sealed} {stream : InStream UInt8}
    (h : InsideLoaded s m batchSize (m.entries.length / batchSize) st stream) :
    ∃ stream', loadRemaining (batchSize * insideItemSize)
      (m.entries.length - st.2.1.entries.length) st.1 st.2.1 st.2.2 =
        .ok (rebuild m.entries ∅, s.reading stream') := by
  let whole := m.entries.length / batchSize * batchSize
  have hwhole : whole ≤ m.entries.length := Nat.div_mul_le_self _ _
  have hlt : m.entries.length < whole + batchSize := by
    have hmod := Nat.mod_lt m.entries.length hpos
    have hsplit : whole + m.entries.length % batchSize = m.entries.length :=
      Nat.div_add_mod' _ _
    omega
  have hsize : st.2.1.entries.length = whole := by rw [h.index, length_rebuild _ hwhole]
  have hrest : rebuild (m.entries.drop whole) st.2.1 = rebuild m.entries ∅ := by
    rw [h.index, ← rebuild_append, List.take_append_drop]
  rw [hsize, loadRemaining, h.reading]
  split
  · let l := m.entries.drop whole
    have hl : l.length = m.entries.length - whole := List.length_drop
    have hsizes : ∀ e ∈ l, e.1.length = chunkHashSize ∧ e.2.length = recipeEntrySize :=
      fun e he => hm.sizes e (List.mem_of_mem_drop he)
    have hdelivered := delivered_items hm h.pos batchSize
    rw [List.take_of_length_le (by rw [List.length_drop]; omega)] at hdelivered
    obtain ⟨stream', buffer, -, -, -, hread, hinsert⟩ := readItems (s := s) h.on hsizes h.buffer
      hdelivered (by omega) st.2.1
    rw [hl] at hinsert
    refine ⟨stream', ?_⟩
    simp only [hread, hinsert, bind, Except.bind, pure, Except.pure]
    rw [hrest]
  · rename_i hnone
    have hall : m.entries.drop whole = [] :=
      List.drop_of_length_le (Nat.le_of_sub_eq_zero (not_not.mp hnone))
    rw [hall] at hrest
    exact ⟨stream, by rw [← hrest]; rfl⟩

/-- All whole batches are loaded, one after the other. -/
theorem InsideLoaded.batches {m : InsideIndex} (hm : m.Sealable) {s : Sealed} {batchSize : Nat}
    {st : Bytes × InsideIndex × Sealed} {stream : InStream UInt8}
    (h : InsideLoaded s m batchSize 0 st stream) :
    ∃ r, (List.range (m.entries.length / batchSize)).foldlM
        (fun st (_ : Nat) => loadBatch batchSize st) st = .ok r ∧
      ∃ stream, InsideLoaded s m batchSize (m.entries.length / batchSize) r stream := by
  refine Loops.foldlM_range (f := fun st (_ : Nat) => loadBatch batchSize st)
    (P := fun k st => ∃ stream, InsideLoaded s m batchSize k st stream) ⟨stream, h⟩ ?_
  rintro k st hk ⟨stream, h⟩
  have hle : (k + 1) * batchSize ≤ m.entries.length :=
    (Nat.mul_le_mul_right _ hk).trans (Nat.div_mul_le_self _ _)
  obtain ⟨st', stream', hrun, h'⟩ := h.step hm hle
  exact ⟨st', hrun, stream', h'⟩

/-- Opening a file that does not exist. -/
theorem loadInsideIndex_none {s : Sealed} (hs : Closed s) (hf : s.files .baselineIndex = none)
    (junk : Nat → UInt8) (batchSize : Nat) : Loaded s (loadInsideIndex junk batchSize s) ∅ := by
  obtain ⟨st, hopen, hst⟩ := ocallInitReadSealedFile_none hs hf
  refine ⟨st, ?_, hst⟩
  simp only [loadInsideIndex, hopen, if_true]
  rfl

/-- **`LoadDedupIndex`** rebuilds the index that was sealed, whatever the batch size, and
does not take its exit. -/
theorem loadInsideIndex_eq {m : InsideIndex} (hm : m.Sealable) {s : Sealed} (hs : Closed s)
    (hf : s.files .baselineIndex = some (insideImages m.entries)) (junk : Nat → UInt8)
    {batchSize : Nat} (hpos : 0 < batchSize) :
    Loaded s (loadInsideIndex junk batchSize s) (rebuild m.entries ∅) := by
  have hopen := ocallInitReadSealedFile_some hs hf
  have hsize : (insideImages m.entries).length ≠ 0 := by
    rw [insideImages, List.length_append, length_encode]
    omega
  obtain ⟨st₀, hon₀, hpos₀, hread₀⟩ := readFileToBuffer_on (s := s)
    (InStream.on_opened (insideImages m.entries)) (length_malloc junk 8).ge
  have hhead : delivered (insideImages m.entries) (.opened (insideImages m.entries)) 8 =
      encode 8 m.entries.length := by
    rw [delivered, InStream.opened_pos, List.drop_zero, insideImages,
      List.take_append_of_le_length (by rw [length_encode]), List.take_of_length_le
      (by rw [length_encode])]
  have hover : Buffer.overwrite (malloc junk 8) 0 (encode 8 m.entries.length) =
      encode 8 m.entries.length :=
    Buffer.overwrite_whole (by rw [length_malloc, length_encode])
  rw [hhead, hover] at hread₀
  rw [hhead, length_encode, InStream.opened_pos, Nat.zero_add] at hpos₀
  have hnum : decode (encode 8 m.entries.length) = m.entries.length :=
    decode_encode_of_lt hm.count
  have hstart : InsideLoaded s m batchSize 0
      (malloc junk (batchSize * insideItemSize), ∅, s.reading st₀) st₀ :=
    ⟨length_malloc _ _, by rw [Nat.zero_mul]; rfl, rfl, hon₀, by rw [hpos₀]; simp⟩
  obtain ⟨r, hloop, stream, hr⟩ := InsideLoaded.batches hm hstart
  obtain ⟨stream', hremain⟩ := loadRemaining_eq hm hpos hr
  obtain ⟨st', hclose, hst'⟩ := ocallCloseReadSealedFile_reading s stream'
  have hfinal : (rebuild m.entries (∅ : InsideIndex)).entries.length = m.entries.length := by
    have hlen := length_rebuild (m := m) m.entries.length le_rfl
    rwa [List.take_length] at hlen
  refine ⟨st', ?_, hst'⟩
  simp only [loadInsideIndex, hopen, hsize, if_false, hread₀, hnum, hloop, hremain, hclose, hfinal,
    ne_eq, not_true_eq_false, bind, Except.bind, pure, Except.pure]

/-! ## The frequency index -/

/-- Every key of the heap has its size and its item, and their number fits its eight
bytes. -/
structure EntryHeap.Sealable (h : EntryHeap) : Prop where
  keys : ∀ k ∈ h.heap, k.length = chunkHashSize
  items : ∀ k ∈ h.heap, ∃ item, h.index.lookup k = some item
  count : h.heap.length < 2 ^ 64

/-- A frequency index whose sketch has the dimensions it was constructed with. -/
structure FreqIndex.Sealable (idx : FreqIndex) : Prop where
  width : idx.cmSketch.width = FreqIndex.init.cmSketch.width
  depth : idx.cmSketch.depth = FreqIndex.init.cmSketch.depth
  heap : idx.insideDedupIndex.Sealable

/-- The sealed file of a sketch. -/
def sketchImages (sketch : CMSketch) : Bytes :=
  (List.range sketch.depth).flatMap (rowBytes sketch)

/-- The image of a heap entry. -/
def heapImage (h : EntryHeap) (k : Bytes) : Bytes :=
  k ++ (h.index.lookup k).elim [] HeapItem.toBytes

/-- The sealed file of a heap. -/
def heapImages (h : EntryHeap) : Bytes :=
  encode 8 h.heap.length ++ h.heap.flatMap (heapImage h)

@[simp] theorem HeapItem.length_toBytes (item : HeapItem) : item.toBytes.length = heapItemSize := by
  simp [HeapItem.toBytes, heapItemSize]

theorem length_counters (width : Nat) (counters : Nat → Nat) :
    ((List.range width).flatMap fun j => encode 4 (counters j)).length = 4 * width := by
  simp [List.length_flatMap, Nat.mul_comm]

theorem writeRows_writing (s : Sealed) (sketch : CMSketch) (rows : List Nat) (done : Bytes) :
    rows.foldl (fun s i => writeBufferToFile (rowBytes sketch i) s) (s.writing .sketch done) =
      s.writing .sketch (done ++ rows.flatMap (rowBytes sketch)) := by
  induction rows generalizing done with
  | nil => simp
  | cons i rows ih =>
      rw [List.foldl_cons, writeBufferToFile_writing, ih, List.flatMap_cons, List.append_assoc]

theorem heapImage_eq {h : EntryHeap} {k : Bytes} {item : HeapItem}
    (hitem : h.index.lookup k = some item) : heapImage h k = k ++ item.toBytes := by
  rw [heapImage, hitem]
  rfl

theorem EntryHeap.Sealable.length_heapImages {h : EntryHeap} (hh : h.Sealable) :
    (heapImages h).length = 8 + h.heap.length * (chunkHashSize + heapItemSize) := by
  have hone : ∀ k ∈ h.heap, (heapImage h k).length = chunkHashSize + heapItemSize := by
    intro k hk
    obtain ⟨item, hitem⟩ := hh.items k hk
    rw [heapImage_eq hitem, List.length_append, hh.keys k hk, HeapItem.length_toBytes]
  rw [heapImages, List.length_append, length_encode, Blocks.length_flatMap hone]

theorem packHeapItem_packed {h : EntryHeap} {size : Nat} {done : Bytes} {st : Bytes × Nat}
    {k : Bytes} {item : HeapItem} (hkey : k.length = chunkHashSize)
    (hitem : h.index.lookup k = some item) (hst : Packed size done st)
    (hfit : (done ++ heapImage h k).length ≤ size) :
    ∃ st', packHeapItem h st k = .ok st' ∧ Packed size (done ++ heapImage h k) st' := by
  rw [heapImage_eq hitem] at hfit ⊢
  rw [List.length_append, List.length_append] at hfit
  obtain ⟨st₁, hpack₁, h₁⟩ := hst.pack k (by omega)
  obtain ⟨st₂, hpack₂, h₂⟩ := h₁.pack item.toBytes (by rw [List.length_append]; omega)
  refine ⟨st₂, ?_, by rw [← List.append_assoc]; exact h₂⟩
  simp only [packHeapItem, hitem, inRange, cStr_eq hkey, hpack₁, hpack₂, bind, Except.bind]

/-- **`PersistDedupIndex`** writes the rows of the sketch to one file and the heap, in
the order of its vector, to the other. -/
theorem persistFreqIndex_eq {idx : FreqIndex} (hidx : idx.insideDedupIndex.Sealable) {s : Sealed}
    (hs : Closed s) (junk : Nat → UInt8) :
    persistFreqIndex junk idx s = .ok ((s.put .sketch (sketchImages idx.cmSketch)).put .freqIndex
      (heapImages idx.insideDedupIndex)) := by
  have hlen := hidx.length_heapImages
  obtain ⟨st₁, hpack₁, h₁⟩ := (packed_malloc junk (8 + idx.insideDedupIndex.heap.length *
    (chunkHashSize + heapItemSize))).pack (encode 8 idx.insideDedupIndex.heap.length)
    (by rw [length_encode, List.length_nil]; omega)
  rw [← hlen, List.nil_append] at h₁
  obtain ⟨st₂, hloop, h₂⟩ := h₁.loop (heapImage idx.insideDedupIndex)
    (packHeapItem idx.insideDedupIndex) idx.insideDedupIndex.heap le_rfl (by
      intro k hk done st hst hfit
      obtain ⟨item, hitem⟩ := hidx.items k hk
      exact packHeapItem_packed (hidx.keys k hk) hitem hst hfit)
  have hfull : st₂.1 = heapImages idx.insideDedupIndex := h₂.filled.eq rfl
  have hs₁ : Closed (s.put .sketch (sketchImages idx.cmSketch)) := hs.put _ _
  have hrows := writeRows_writing s idx.cmSketch (List.range idx.cmSketch.depth) []
  rw [List.nil_append, ← sketchImages] at hrows
  unfold persistFreqIndex
  rw [openOrExit_eq hs]
  simp only [bind, Except.bind, pure, Except.pure]
  rw [hrows, ocallCloseWriteSealedFile_writing hs, openOrExit_eq hs₁]
  simp only [hpack₁, hloop]
  rw [writeBufferToFile_writing, List.nil_append, hfull, ocallCloseWriteSealedFile_writing hs₁]

/-- The rows are read inside their arrays, whatever the file holds. -/
theorem loadRows_on {f : Bytes} {s : Sealed} {st : InStream UInt8} (hst : st.On f)
    (width i depth : Nat) (counters : Nat → Nat → Nat) :
    ∃ st' counters', loadRows width i depth counters (s.reading st) =
      .ok (counters', s.reading st') := by
  induction depth generalizing i st counters with
  | zero => exact ⟨st, counters, rfl⟩
  | succ depth ih =>
      have hrow := length_counters width (counters i)
      obtain ⟨st₁, hon, -, hread⟩ := readFileToBuffer_on (s := s) hst hrow.ge
      obtain ⟨st₂, counters', hrest⟩ := ih hon (i + 1) _
      refine ⟨st₂, counters', ?_⟩
      simp only [loadRows, hread, bind, Except.bind]
      exact hrest

/-- What `LoadDedupIndex` makes of an entry of the heap. -/
def heapEntry (h : EntryHeap) (k : Bytes) : Sigma fun _ : Bytes => HeapItem :=
  ⟨k, HeapItem.ofBytes ((h.index.lookup k).elim [] HeapItem.toBytes)⟩

/-- The heap entries of the file are taken one after the other. -/
theorem loadItems_eq {h : EntryHeap} (hh : h.Sealable) {l : List Bytes}
    (hl : ∀ k ∈ l, k ∈ h.heap) {buffer a : Bytes} {offset : Nat}
    (hbuffer : buffer = a ++ l.flatMap (heapImage h)) (ha : a.length = offset) (h₀ : EntryHeap) :
    loadItems buffer offset l.length h₀ = .ok
      { heap := h₀.heap ++ l, index := rebuild (l.map (heapEntry h)) h₀.index } := by
  induction l generalizing a offset h₀ with
  | nil => simp [loadItems, rebuild]
  | cons k l ih =>
      have hk := hl k List.mem_cons_self
      have hkey := hh.keys k hk
      obtain ⟨item, hitem⟩ := hh.items k hk
      have hentry : heapEntry h k = ⟨k, HeapItem.ofBytes item.toBytes⟩ := by
        rw [heapEntry, hitem]
        rfl
      have hkeyAt : buffer = a ++ (k ++ (item.toBytes ++ l.flatMap (heapImage h))) := by
        rw [hbuffer, List.flatMap_cons, heapImage_eq hitem, List.append_assoc]
      have hitemAt : buffer = (a ++ k) ++ (item.toBytes ++ l.flatMap (heapImage h)) := by
        simpa using hkeyAt
      have hrestAt : buffer = (a ++ k ++ item.toBytes) ++ l.flatMap (heapImage h) := by
        simpa using hkeyAt
      have hread₁ := read_at hkeyAt ha hkey
      have hread₂ := read_at hitemAt (by rw [List.length_append, ha, hkey])
        item.length_toBytes
      have hrest := ih (fun x hx => hl x (List.mem_cons_of_mem _ hx)) hrestAt
        (by rw [List.length_append, List.length_append, ha, hkey, item.length_toBytes])
        { heap := h₀.heap ++ [k], index := insertNew h₀.index k (HeapItem.ofBytes item.toBytes) }
      simp only [List.length_cons, loadItems, hread₁, hread₂, bind, Except.bind]
      rw [hrest, List.map_cons, hentry, List.append_assoc]
      rfl

theorem loadFreqIndex_none {s : Sealed} (hs : Closed s) (hf : s.files .sketch = none)
    (junk : Nat → UInt8) (idx : FreqIndex) : Loaded s (loadFreqIndex junk idx s) idx := by
  obtain ⟨st, hopen, hst⟩ := ocallInitReadSealedFile_none hs hf
  refine ⟨st, ?_, hst⟩
  simp only [loadFreqIndex, hopen, if_true]
  rfl

/-- `LoadDedupIndex` once the rows of the sketch are read: the heap's file is read inside
its buffer, and both files are closed. -/
theorem loadFreqIndex_of_rows {s : Sealed} (hs : Closed s) {f : Bytes}
    (hf : s.files .sketch = some f) (hne : f ≠ []) {h : EntryHeap} (hh : h.Sealable)
    (hheap : s.files .freqIndex = some (heapImages h)) (junk : Nat → UInt8) {idx : FreqIndex}
    {counters : Nat → Nat → Nat} {st₁ : InStream UInt8}
    (hrows : loadRows idx.cmSketch.width 0 idx.cmSketch.depth idx.cmSketch.counterArray
      (s.reading (.opened f)) = .ok (counters, s.reading st₁)) :
    Loaded s (loadFreqIndex junk idx s)
      { idx with
        cmSketch := { idx.cmSketch with counterArray := counters }
        insideDedupIndex :=
          { heap := idx.insideDedupIndex.heap ++ h.heap
            index := rebuild (h.heap.map (heapEntry h)) idx.insideDedupIndex.index } } := by
  have hopen₁ := ocallInitReadSealedFile_some hs hf
  have hsize₁ : f.length ≠ 0 := fun hzero => hne (List.length_eq_zero_iff.mp hzero)
  obtain ⟨st₂, hclose₂, hst₂⟩ := ocallCloseReadSealedFile_reading s st₁
  have hfile : (s.reading st₂).files .freqIndex = some (heapImages h) := hheap
  have hopen₂ := ocallInitReadSealedFile_some (hs.reading hst₂) hfile
  have hsize₂ : (heapImages h).length ≠ 0 := by
    rw [hh.length_heapImages]
    omega
  obtain ⟨st₃, hread⟩ := readFileToBuffer_whole s (heapImages h) junk
  obtain ⟨st₄, hclose₄, hst₄⟩ := ocallCloseReadSealedFile_reading s st₃
  have hnum : decode (encode 8 h.heap.length) = h.heap.length := decode_encode_of_lt hh.count
  have hword := read_at (List.nil_append (heapImages h)).symm List.length_nil (length_encode 8 _)
  have hitems := loadItems_eq hh (fun _ hk => hk) (show heapImages h = _ from rfl)
    (length_encode 8 _) idx.insideDedupIndex
  refine ⟨st₄, ?_, hst₄⟩
  simp only [loadFreqIndex, hopen₁, hsize₁, if_false, hrows, hclose₂, hopen₂, hsize₂,
    reading_reading, hread, hword, hnum, hitems, hclose₄, bind, Except.bind, pure, Except.pure]

/-- **`LoadDedupIndex`** reads both files inside its buffers, whatever the sketch's file
holds. -/
theorem loadFreqIndex_some {s : Sealed} (hs : Closed s) {f : Bytes} (hf : s.files .sketch = some f)
    (hne : f ≠ []) {h : EntryHeap} (hh : h.Sealable)
    (hheap : s.files .freqIndex = some (heapImages h)) (junk : Nat → UInt8) (idx : FreqIndex) :
    ∃ idx', Loaded s (loadFreqIndex junk idx s) idx' := by
  obtain ⟨st, counters, hrows⟩ := loadRows_on (s := s) (InStream.on_opened f) idx.cmSketch.width 0
    idx.cmSketch.depth idx.cmSketch.counterArray
  exact ⟨_, loadFreqIndex_of_rows hs hf hne hh hheap junk hrows⟩

end Debe
