import Debe.Lib.Records
import Mathlib.Data.List.TakeDrop

/-!
# Constants and records shared by the enclave and the server

The constants of `constVar.h` and the records of `chunkStructure.h` that the
modelled functions read or write.  A record that the program copies with
`memcpy` has its byte image next to it, because the same sixteen bytes of a
`RecipeEntry_t` are encrypted as an index value, encrypted again inside a
recipe batch, and read back by the restore path.

Sizes that live in memory are naturals; the two words of a chunk address are
32-bit, since the address is stored and shipped as bytes.
-/

namespace Debe

open LittleEndian

abbrev Bytes := List UInt8

/-- `CRYPTO_BLOCK_SIZE`: the size of an IV. -/
def cryptoBlockSize : Nat := 16

/-- `CHUNK_HASH_SIZE`. -/
def chunkHashSize : Nat := 32

/-- `MAX_CHUNK_SIZE`. -/
def maxChunkSize : Nat := 16384

/-- `MAX_CONTAINER_SIZE`: four mebibytes. -/
def maxContainerSize : Nat := 2 ^ 22

/-- `CONTAINER_ID_LENGTH`. -/
def containerIDLength : Nat := 8

/-- `CONTAINER_CAPPING_VALUE`: how many containers one restore request names. -/
def containerCappingValue : Nat := 16

/-- `TWO_PATH_STATUS`. -/
inductive DedupFlag
  | unique
  | tmpUnique
  | duplicate
  | tmpDuplicate
  deriving DecidableEq, Repr

/-- `PROTCOL_CODE_SET`, the message types of the upload and restore dialogues. -/
inductive MessageType
  | clientUploadChunk
  | clientUploadRecipeEnd
  | clientLoginUpload
  | clientLoginDownload
  | clientRestoreReady
  | serverRestoreChunk
  | serverRestoreFinal
  | serverLoginResponse
  | serverFileNonExist
  deriving DecidableEq, Repr

/-- The eight characters that name a container. -/
abbrev ContainerID := { name : Bytes // name.length = containerIDLength }

/-- `Chunk_t`: at most `MAX_CHUNK_SIZE` bytes with their size. -/
abbrev Chunk := { data : Bytes // data.length ≤ maxChunkSize }

/-- `FileRecipeHead_t`. -/
structure FileRecipeHead where
  fileSize : UInt64
  totalChunkNum : UInt64
  deriving DecidableEq, Repr

/-- `RecipeEntry_t`: the address of a stored chunk. -/
structure RecipeEntry where
  containerName : ContainerID
  offset : UInt32
  length : UInt32
  deriving DecidableEq, Repr

/-- `Container_t`.  Only the first `currentSize` bytes of the body mean anything,
so the body holds exactly those. -/
structure Container where
  containerID : ContainerID
  body : Bytes
  deriving DecidableEq, Repr

/-- `_iv`, seen as the two 64-bit words that `PickNewIV` works on. -/
structure IV where
  lo : UInt64
  hi : UInt64
  deriving DecidableEq, Repr

/-- The five statistics that every index object carries. -/
structure Stats where
  logicalChunkNum : Nat := 0
  logicalDataSize : Nat := 0
  uniqueChunkNum : Nat := 0
  uniqueDataSize : Nat := 0
  compressedDataSize : Nat := 0
  deriving DecidableEq, Repr

/-! ## Byte images -/

/-- `sizeof(RecipeEntry_t)`. -/
def recipeEntrySize : Nat := 16

/-- `sizeof(FileRecipeHead_t)`. -/
def fileRecipeHeadSize : Nat := 16

def IV.toBytes (iv : IV) : Bytes :=
  encode 8 iv.lo.toNat ++ encode 8 iv.hi.toNat

@[simp] theorem IV.length_toBytes (iv : IV) : iv.toBytes.length = cryptoBlockSize := by
  simp [IV.toBytes, cryptoBlockSize]

def FileRecipeHead.toBytes (h : FileRecipeHead) : Bytes :=
  encode 8 h.fileSize.toNat ++ encode 8 h.totalChunkNum.toNat

def FileRecipeHead.ofBytes (bs : Bytes) : FileRecipeHead where
  fileSize := UInt64.ofNat (decode (bs.take 8))
  totalChunkNum := UInt64.ofNat (decode ((bs.drop 8).take 8))

@[simp] theorem FileRecipeHead.length_toBytes (h : FileRecipeHead) :
    h.toBytes.length = fileRecipeHeadSize := by
  simp [FileRecipeHead.toBytes, fileRecipeHeadSize]

/-- Reading a recipe head back from its own bytes. -/
theorem FileRecipeHead.ofBytes_toBytes (h : FileRecipeHead) :
    FileRecipeHead.ofBytes h.toBytes = h := by
  have hsize : decode (encode 8 h.fileSize.toNat) = h.fileSize.toNat :=
    decode_encode_of_lt h.fileSize.toNat_lt
  have hnum : decode (encode 8 h.totalChunkNum.toNat) = h.totalChunkNum.toNat :=
    decode_encode_of_lt h.totalChunkNum.toNat_lt
  cases h
  simp_all [FileRecipeHead.ofBytes, FileRecipeHead.toBytes, List.take_of_length_le]

def RecipeEntry.toBytes (e : RecipeEntry) : Bytes :=
  e.containerName.1 ++ encode 4 e.offset.toNat ++ encode 4 e.length.toNat

/-- The address held by a sixteen-byte string.  Shorter strings are padded, so
that the name always has its eight characters. -/
def RecipeEntry.ofBytes (bs : Bytes) : RecipeEntry where
  containerName := ⟨bs.takeD containerIDLength 0, List.takeD_length _ _ _⟩
  offset := UInt32.ofNat (decode ((bs.drop 8).take 4))
  length := UInt32.ofNat (decode ((bs.drop 12).take 4))

@[simp] theorem RecipeEntry.length_toBytes (e : RecipeEntry) :
    e.toBytes.length = recipeEntrySize := by
  have hname := e.containerName.2
  simp [RecipeEntry.toBytes, recipeEntrySize, hname, containerIDLength]

/-- Reading an address back from its own bytes, whatever follows them. -/
theorem RecipeEntry.ofBytes_toBytes_append (e : RecipeEntry) (rest : Bytes) :
    RecipeEntry.ofBytes (e.toBytes ++ rest) = e := by
  obtain ⟨⟨name, hname⟩, off, len⟩ := e
  have hoff : decode (encode 4 off.toNat) = off.toNat := decode_encode_of_lt off.toNat_lt
  have hlen : decode (encode 4 len.toNat) = len.toNat := decode_encode_of_lt len.toNat_lt
  have h8 : name.length = 8 := hname
  have htake : (name ++ (encode 4 off.toNat ++ (encode 4 len.toNat ++ rest))).takeD
      containerIDLength 0 = name := by
    rw [List.takeD_eq_take _ (by simp [hname])]
    simp [← hname]
  simp [RecipeEntry.ofBytes, RecipeEntry.toBytes, List.append_assoc, htake, List.drop_append,
    h8, hoff, hlen, List.drop_of_length_le]

theorem RecipeEntry.ofBytes_toBytes (e : RecipeEntry) :
    RecipeEntry.ofBytes e.toBytes = e := by
  simpa using e.ofBytes_toBytes_append []

/-- The bytes of the address held by a sixteen-byte string. -/
theorem RecipeEntry.toBytes_ofBytes {bs : Bytes} (h : bs.length = recipeEntrySize) :
    (RecipeEntry.ofBytes bs).toBytes = bs := by
  have h16 : bs.length = 16 := h
  have hword : ∀ ws : Bytes, ws.length = 4 →
      encode 4 (UInt32.ofNat (decode ws)).toNat = ws := by
    intro ws hws
    have hlt : decode ws < 2 ^ 32 := (decode_lt ws).trans_eq (by rw [hws]; rfl)
    rw [UInt32.toNat_ofNat_of_lt' hlt, ← hws, encode_decode]
  have hname : bs.takeD containerIDLength 0 = bs.take 8 :=
    List.takeD_eq_take _ (by rw [h16]; decide)
  have hsplit : bs.take 8 ++ (bs.drop 8).take 4 ++ (bs.drop 12).take 4 = bs := by
    rw [← List.take_add, ← List.take_add, List.take_of_length_le (by omega)]
  calc (RecipeEntry.ofBytes bs).toBytes
      = bs.take 8 ++ (bs.drop 8).take 4 ++ (bs.drop 12).take 4 := by
        simp only [RecipeEntry.ofBytes, RecipeEntry.toBytes, hname]
        rw [hword _ (by rw [List.length_take, List.length_drop]; omega),
          hword _ (by rw [List.length_take, List.length_drop]; omega)]
    _ = bs := hsplit

/-- Only the first sixteen bytes matter. -/
theorem RecipeEntry.ofBytes_append {a : Bytes} (h : a.length = recipeEntrySize) (rest : Bytes) :
    RecipeEntry.ofBytes (a ++ rest) = RecipeEntry.ofBytes a := by
  calc RecipeEntry.ofBytes (a ++ rest)
      = RecipeEntry.ofBytes ((RecipeEntry.ofBytes a).toBytes ++ rest) := by
        rw [RecipeEntry.toBytes_ofBytes h]
    _ = RecipeEntry.ofBytes a := RecipeEntry.ofBytes_toBytes_append _ rest

/-- The plaintext of a recipe batch. -/
def entriesToBytes (es : List RecipeEntry) : Bytes :=
  es.flatMap RecipeEntry.toBytes

/-- Walk `recipeNum` addresses from the front of a buffer. -/
def entriesOfBytes : Nat → Bytes → List RecipeEntry
  | 0, _ => []
  | n+1, bs => RecipeEntry.ofBytes bs :: entriesOfBytes n (bs.drop recipeEntrySize)

@[simp] theorem length_entriesToBytes (es : List RecipeEntry) :
    (entriesToBytes es).length = es.length * recipeEntrySize := by
  induction es with
  | nil => simp [entriesToBytes]
  | cons e es ih =>
      have hcons : entriesToBytes (e :: es) = e.toBytes ++ entriesToBytes es := by
        simp [entriesToBytes]
      rw [hcons, List.length_append, ih, RecipeEntry.length_toBytes, List.length_cons]
      ring

/-- The first entry of a string that holds some, and the rest. -/
theorem length_entry_cut {n : Nat} {a : Bytes} (h : a.length = (n + 1) * recipeEntrySize) :
    (a.take recipeEntrySize).length = recipeEntrySize ∧
      (a.drop recipeEntrySize).length = n * recipeEntrySize := by
  rw [Nat.succ_mul] at h
  constructor
  · rw [List.length_take]
    omega
  · rw [List.length_drop]
    omega

/-- Entries behind a whole number of others. -/
theorem entriesOfBytes_append {m n : Nat} {a d : Bytes} (h : a.length = m * recipeEntrySize) :
    entriesOfBytes (m + n) (a ++ d) = entriesOfBytes m a ++ entriesOfBytes n d := by
  induction m generalizing a with
  | zero =>
      have hnil : a = [] := List.length_eq_zero_iff.mp (by simpa using h)
      simp [hnil, entriesOfBytes]
  | succ m ih =>
      obtain ⟨hfirst, hrest⟩ := length_entry_cut h
      have hcut := List.take_append_drop recipeEntrySize a
      have hhead : RecipeEntry.ofBytes (a ++ d) = RecipeEntry.ofBytes a := by
        rw [← hcut, List.append_assoc, RecipeEntry.ofBytes_append hfirst,
          RecipeEntry.ofBytes_append hfirst]
      have hdrop : (a ++ d).drop recipeEntrySize = a.drop recipeEntrySize ++ d :=
        List.drop_append_of_le_length (by rw [List.length_take] at hfirst; omega)
      rw [Nat.add_right_comm, entriesOfBytes, entriesOfBytes, hhead, hdrop, ih hrest,
        List.cons_append]

/-- Any whole number of sixteen-byte strings are the bytes of their entries. -/
theorem entriesToBytes_entriesOfBytes {n : Nat} {d : Bytes} (h : d.length = n * recipeEntrySize) :
    entriesToBytes (entriesOfBytes n d) = d := by
  induction n generalizing d with
  | zero =>
      have hnil : d = [] := List.length_eq_zero_iff.mp (by simpa using h)
      simp [hnil, entriesOfBytes, entriesToBytes]
  | succ n ih =>
      obtain ⟨hfirst, hrest⟩ := length_entry_cut h
      have hcut := List.take_append_drop recipeEntrySize d
      have hhead : (RecipeEntry.ofBytes d).toBytes = d.take recipeEntrySize := by
        conv_lhs => rw [← hcut]
        rw [RecipeEntry.ofBytes_append hfirst, RecipeEntry.toBytes_ofBytes hfirst]
      have hcons : entriesToBytes (entriesOfBytes (n + 1) d) =
          (RecipeEntry.ofBytes d).toBytes ++
            entriesToBytes (entriesOfBytes n (d.drop recipeEntrySize)) := rfl
      rw [hcons, hhead, ih hrest, hcut]

/-- A recipe batch is read back entry by entry. -/
theorem entriesOfBytes_entriesToBytes (es : List RecipeEntry) :
    entriesOfBytes es.length (entriesToBytes es) = es := by
  induction es with
  | nil => rfl
  | cons e es ih =>
      have hcons : entriesToBytes (e :: es) = e.toBytes ++ entriesToBytes es := by
        simp [entriesToBytes]
      have hdrop : (e.toBytes ++ entriesToBytes es).drop recipeEntrySize =
          entriesToBytes es := by
        rw [List.drop_append, ← e.length_toBytes]
        simp
      rw [hcons, List.length_cons, entriesOfBytes, RecipeEntry.ofBytes_toBytes_append, hdrop, ih]

end Debe
