import Debe.Sealing
import Debe.Lib.FirstBinding

/-!
# Encrypted maps in the index store

Extreme binning and sparse indexing keep maps from fingerprints to addresses outside the
enclave, a bin or a manifest under one ID each: a table of `BinValue_t` that is encrypted
with the index key.

`SegmentParams` adds what these designs take from outside to the other parameters: the IDs
that `CreateUUID` will draw for them, and the order in which an `unordered_map` is
iterated.
-/

namespace Debe

open LittleEndian FirstBinding

/-- `uint8_t[CHUNK_HASH_SIZE]`. -/
abbrev ChunkHash := { bs : Bytes // bs.length = chunkHashSize }

/-- `uint8_t[SEGMENT_ID_LENGTH]`. -/
abbrev SegmentID := { bs : Bytes // bs.length = segmentIDLength }

theorem length_takeHash (bs : Bytes) : (bs.takeD chunkHashSize 0).length = chunkHashSize :=
  List.takeD_length _ _ _

theorem length_takeID (bs : Bytes) : (bs.takeD segmentIDLength 0).length = segmentIDLength :=
  List.takeD_length _ _ _

/-- The hash at the front of a buffer.  A shorter string is padded. -/
def ChunkHash.ofBytes (bs : Bytes) : ChunkHash := ⟨bs.takeD chunkHashSize 0, length_takeHash bs⟩

/-- The ID at the front of a buffer. -/
def SegmentID.ofBytes (bs : Bytes) : SegmentID := ⟨bs.takeD segmentIDLength 0, length_takeID bs⟩

theorem ChunkHash.ofBytes_append (hash : ChunkHash) (rest : Bytes) :
    ChunkHash.ofBytes (hash.1 ++ rest) = hash := by
  have hsize : chunkHashSize ≤ (hash.1 ++ rest).length := by
    rw [List.length_append, hash.2]
    omega
  exact Subtype.ext ((List.takeD_eq_take _ hsize).trans (List.take_left' hash.2))

theorem SegmentID.ofBytes_val (id : SegmentID) : SegmentID.ofBytes id.1 = id :=
  Subtype.ext ((List.takeD_eq_take _ id.2.ge).trans (List.take_of_length_le id.2.le))

/-- The fingerprint of a chunk. -/
def Params.fingerprint (p : Params) (chunk : Bytes) : ChunkHash :=
  ⟨p.crypto.generateHash chunk, p.crypto.length_generateHash chunk⟩

/-- `tmpDedupIndex`: the addresses of the fingerprints that the current segment is
compared with. -/
abbrev DedupIndex := AList (fun _ : ChunkHash => RecipeEntry)

/-- What a start of a design with segments uses besides. -/
structure SegmentParams extends Params where
  segmentID : Nat → SegmentID
  iterate : DedupIndex → List (Sigma fun _ : ChunkHash => RecipeEntry)
  iterate_perm : ∀ m, (iterate m).Perm m.entries

/-- `BinValue_t`. -/
structure BinValue where
  chunkFp : ChunkHash
  address : RecipeEntry
  deriving DecidableEq, Repr

/-- `sizeof(BinValue_t)`. -/
def binValueSize : Nat := chunkHashSize + recipeEntrySize

def BinValue.toBytes (e : BinValue) : Bytes := e.chunkFp.1 ++ e.address.toBytes

/-- The record at the front of a buffer. -/
def BinValue.ofBytes (bs : Bytes) : BinValue where
  chunkFp := ChunkHash.ofBytes bs
  address := RecipeEntry.ofBytes (bs.drop chunkHashSize)

/-- The key and the value that are inserted for it. -/
def BinValue.binding (e : BinValue) : Sigma fun _ : ChunkHash => RecipeEntry :=
  ⟨e.chunkFp, e.address⟩

theorem BinValue.length_toBytes (e : BinValue) : e.toBytes.length = binValueSize := by
  rw [toBytes, List.length_append, e.chunkFp.2, e.address.length_toBytes]
  rfl

/-- Reading a record back from its own bytes, whatever follows them. -/
theorem BinValue.ofBytes_toBytes_append (e : BinValue) (rest : Bytes) :
    BinValue.ofBytes (e.toBytes ++ rest) = e := by
  have hdrop : (e.chunkFp.1 ++ (e.address.toBytes ++ rest)).drop chunkHashSize =
      e.address.toBytes ++ rest := List.drop_left' e.chunkFp.2
  simp only [ofBytes, toBytes, List.append_assoc, ChunkHash.ofBytes_append, hdrop,
    e.address.ofBytes_toBytes_append]

/-- The records of a table. -/
def binValues (binValue : Bytes) : List BinValue :=
  (List.range (binValue.length / binValueSize)).map fun i =>
    BinValue.ofBytes (binValue.drop (i * binValueSize))

/-- A table is read back record by record. -/
theorem binValues_flatMap (es : List BinValue) : binValues (es.flatMap BinValue.toBytes) = es := by
  have hsize : ∀ e ∈ es, e.toBytes.length = binValueSize := fun e _ => e.length_toBytes
  have hnum : (es.flatMap BinValue.toBytes).length / binValueSize = es.length := by
    rw [Blocks.length_flatMap hsize, Nat.mul_div_cancel _ (by decide)]
  rw [binValues, hnum]
  refine List.ext_getElem (by simp) fun i hi hi' => ?_
  rw [List.getElem_map, List.getElem_range, Blocks.drop_flatMap hsize,
    List.drop_eq_getElem_cons hi', List.flatMap_cons, BinValue.ofBytes_toBytes_append]

/-! ## The store -/

variable {p : SegmentParams} {store : OutIndex} {id id' : Bytes}

/-- `ReadIndexStore` and `IndexAESCMCDec`: the records under an ID. -/
def readBinValues (p : SegmentParams) (store : OutIndex) (id : Bytes) :
    Option (List BinValue) :=
  (store.lookup id).map fun cipherBinValue =>
    binValues (p.crypto.indexAESCMCDec p.indexQueryKey cipherBinValue)

/-- `IndexAESCMCEnc` and `UpdateIndexStore`: a table of records under an ID. -/
def writeBinValues (p : SegmentParams) (store : OutIndex) (id : Bytes) (es : List BinValue) :
    OutIndex :=
  store.insert id (p.crypto.indexAESCMCEnc p.indexQueryKey (es.flatMap BinValue.toBytes))

/-- A table that was written is read. -/
theorem readBinValues_write (es : List BinValue) :
    readBinValues p (writeBinValues p store id es) id = some es := by
  have hblocks : (es.flatMap BinValue.toBytes).length % cryptoBlockSize = 0 := by
    rw [Blocks.length_flatMap fun e _ => e.length_toBytes]
    exact Nat.mod_eq_zero_of_dvd (Dvd.dvd.mul_left (by decide) _)
  rw [readBinValues, writeBinValues, AList.lookup_insert, Option.map_some,
    p.crypto.indexAESCMCDec_indexAESCMCEnc _ hblocks, binValues_flatMap]

/-- The other tables stay. -/
theorem readBinValues_write_ne (h : id' ≠ id) (es : List BinValue) :
    readBinValues p (writeBinValues p store id es) id' = readBinValues p store id' := by
  rw [readBinValues, writeBinValues, AList.lookup_insert_ne h]
  rfl

/-- `FetchBin`: the records under an ID are inserted one after the other. -/
def fetchBin (p : SegmentParams) (store : OutIndex) (binAddress : Bytes)
    (tmpDedupIndex : DedupIndex) : Option DedupIndex :=
  (readBinValues p store binAddress).map fun es =>
    insertAll tmpDedupIndex (es.map BinValue.binding)

/-- `UpdateBinStore`. -/
def updateBinStore (p : SegmentParams) (store : OutIndex) (binAddress : Bytes)
    (tmpDedupIndex : DedupIndex) : OutIndex :=
  writeBinValues p store binAddress ((p.iterate tmpDedupIndex).map fun e => ⟨e.1, e.2⟩)

/-- **A bin is fetched as it was written.** -/
theorem fetchBin_update (p : SegmentParams) (store : OutIndex) (id : Bytes) (m : DedupIndex) :
    ∃ m', fetchBin p (updateBinStore p store id m) id ∅ = some m' ∧
      ∀ k, m'.lookup k = m.lookup k := by
  have hback : ((p.iterate m).map fun e => (⟨e.1, e.2⟩ : BinValue)).map BinValue.binding =
      p.iterate m := by
    rw [List.map_map]
    exact List.map_id _
  refine ⟨insertAll ∅ (p.iterate m), ?_, lookup_insertAll_perm (p.iterate_perm m)⟩
  rw [fetchBin, updateBinStore, readBinValues_write, Option.map_some, hback]

/-- The other bins stay. -/
theorem fetchBin_update_ne (h : id' ≠ id) (m m' : DedupIndex) :
    fetchBin p (updateBinStore p store id m) id' m' = fetchBin p store id' m' := by
  rw [fetchBin, updateBinStore, readBinValues_write_ne h]
  rfl

end Debe
