import Debe.IndexCipher
import Debe.Restart

/-!
# The file of the out-enclave index

`InMemoryDatabase` writes its map to a file when it is deleted and reads it back when it
is opened.  A key and a value stand behind their lengths, which are `int`s, and nothing
counts the pairs: the reader sets its length to zero after each pair, and a read at the
end of the file, which delivers nothing, leaves it so.

A file that cannot be opened comes out as one of size zero.
-/

namespace Debe

open LittleEndian

namespace InMemoryDatabase

/-! ## The functions -/

/-- An `int` as it lies in memory. -/
def intBytes (n : Int) : Bytes := encode 4 (n % 4294967296).toNat

/-- The `int` of four bytes. -/
def intOf (bs : Bytes) : Int := asInt (decode bs)

/-- `write` of a string's length and its bytes. -/
def writeString (str : Bytes) : Bytes :=
  let itemSize := asInt str.length
  intBytes itemSize ++ str.take itemSize.toNat

/-- What the destructor writes for a pair. -/
def writePair (e : Sigma fun _ : Bytes => Bytes) : Bytes := writeString e.1 ++ writeString e.2

/-- The destructor: the file that it leaves. -/
def destroy (indexObj : OutIndex) : Bytes :=
  indexObj.entries.foldl (fun dbFile e => dbFile ++ writePair e) []

/-- `read` into `itemSize`, which keeps the bytes that are not delivered. -/
def readInt (dbFile : InStream UInt8) (itemSize : Int) : Int × InStream UInt8 :=
  let r := dbFile.read 4
  (intOf (Buffer.overwrite (intBytes itemSize) 0 r.1), r.2)

/-- `resize` of a string and `read` into it.  A negative size is too large for a string. -/
def readString (dbFile : InStream UInt8) (itemSize : Int) (str : Bytes) :
    Except Fault (Bytes × InStream UInt8) :=
  if itemSize < 0 then .error .outOfRange
  else
    let r := dbFile.read itemSize.toNat
    .ok (Buffer.overwrite (str.takeD itemSize.toNat 0) 0 r.1, r.2)

/-- What the rounds of the loop pass on: the stream, the two strings and the map. -/
structure Loading where
  dbFile : InStream UInt8
  key : Bytes
  value : Bytes
  indexObj : OutIndex

/-- A round with a key of the size read. -/
def loadPair (s : Loading) (itemSize : Int) : Except Fault Loading := do
  let key ← readString s.dbFile itemSize s.key
  let size := readInt key.2 itemSize
  let value ← readString size.2 size.1 s.value
  return { dbFile := value.2
           key := key.1
           value := value.1
           indexObj := insertNew s.indexObj key.1 value.1 }

/-- The loop of `OpenDB`; `itemSize` is zero at the start of every round. -/
def loadLoop : Nat → Loading → Except Fault Loading
  | 0, _ => .error .outOfRange
  | fuel+1, s =>
      let size := readInt s.dbFile 0
      if size.1 = 0 then .ok { s with dbFile := size.2 }
      else do
        let s ← loadPair { s with dbFile := size.2 } size.1
        if s.dbFile.eofbit then return s else loadLoop fuel s

/-- `OpenDB` on an empty object.  Every round but the last takes four bytes at least, so
as many rounds as there are bytes, and one more, are enough. -/
def openDB (file : Option Bytes) : Except Fault OutIndex := do
  let dbFile := InStream.new.openFile file
  let beginSize := dbFile.tellg
  let fileSize := (beginSize.2.seekg beginSize.2.endPos).tellg
  if fileSize.1 - beginSize.1 = 0 then return ∅
  let r ← loadLoop (fileSize.2.endPos + 1)
    { dbFile := fileSize.2.seekg 0, key := [], value := [], indexObj := ∅ }
  return r.indexObj

/-! ## Strings -/

theorem length_intBytes (n : Int) : (intBytes n).length = 4 := length_encode 4 _

/-- An `int` that is not negative is read back. -/
theorem intOf_intBytes {n : Nat} (h : n < 2147483648) : intOf (intBytes n) = n := by
  have hword : ((n : Int) % 4294967296).toNat = n := by omega
  rw [intOf, intBytes, hword, decode_encode_of_lt (by omega), asInt_of_lt h]

theorem writeString_eq {str : Bytes} (h : str.length < 2147483648) :
    writeString str = intBytes str.length ++ str := by
  rw [writeString, asInt_of_lt h, Int.toNat_natCast, List.take_length]

/-- The stream on a file, at a position that was reached without meeting the end. -/
def onFile (f : Bytes) (pos : Nat) : InStream UInt8 := ⟨some f, pos, false, false⟩

theorem onFile_eofbit (f : Bytes) (pos : Nat) : (onFile f pos).eofbit = false := rfl

/-- The length in front of a string. -/
theorem readInt_mid {f a c : Bytes} {n : Nat} (hn : n < 2147483648)
    (hf : f = a ++ (intBytes n ++ c)) (itemSize : Int) :
    readInt (onFile f a.length) itemSize = ((n : Int), onFile f (a.length + 4)) := by
  have hread := InStream.read_mid a (intBytes n) c
  rw [length_intBytes, ← hf] at hread
  have hover : Buffer.overwrite (intBytes itemSize) 0 (intBytes n) = intBytes n :=
    Buffer.overwrite_whole (by rw [length_intBytes, length_intBytes])
  simp only [readInt, onFile, hread, hover, intOf_intBytes hn]

/-- Nothing is read at the end, and the zero stays. -/
theorem readInt_end (f : Bytes) :
    readInt (onFile f f.length) 0 = (0, ⟨some f, f.length, true, true⟩) := by
  have hzero : intOf (intBytes 0) = 0 := by
    simpa using intOf_intBytes (n := 0) (by omega)
  simp only [readInt, onFile, InStream.read_end f (Nat.succ_pos 3), Buffer.overwrite_nil, hzero]

/-- The bytes of a string, whatever the string was before. -/
theorem readString_mid {f a b c : Bytes} (hf : f = a ++ (b ++ c)) (str : Bytes) :
    readString (onFile f a.length) b.length str = .ok (b, onFile f (a.length + b.length)) := by
  have hread := InStream.read_mid a b c
  rw [← hf] at hread
  have hover : Buffer.overwrite (str.takeD b.length 0) 0 b = b :=
    Buffer.overwrite_whole (List.takeD_length _ _ _).le
  rw [readString, if_neg (by omega), Int.toNat_natCast, onFile, hread]
  exact congrArg (fun x => Except.ok (x, _)) hover

/-! ## The file -/

/-- The keys are not empty, and all lengths fit an `int`. -/
def Fits (e : Sigma fun _ : Bytes => Bytes) : Prop :=
  (1 ≤ e.1.length ∧ e.1.length < 2147483648) ∧ e.2.length < 2147483648

theorem writePair_eq {e : Sigma fun _ : Bytes => Bytes} (h : Fits e) :
    writePair e = intBytes e.1.length ++ (e.1 ++ (intBytes e.2.length ++ e.2)) := by
  rw [writePair, writeString_eq h.1.2, writeString_eq h.2, List.append_assoc]

theorem destroy_eq (indexObj : OutIndex) :
    destroy indexObj = indexObj.entries.flatMap writePair := by
  have hloop : ∀ (l : List (Sigma fun _ : Bytes => Bytes)) (done : Bytes),
      l.foldl (fun dbFile e => dbFile ++ writePair e) done = done ++ l.flatMap writePair := by
    intro l
    induction l with
    | nil => simp
    | cons e l ih =>
        intro done
        rw [List.foldl_cons, ih, List.flatMap_cons, List.append_assoc]
  rw [destroy, hloop, List.nil_append]

/-- A round whose three reads deliver. -/
theorem loadPair_of {s : Loading} {itemSize size : Int} {key value : Bytes}
    {st₁ st₂ st₃ : InStream UInt8} (hkey : readString s.dbFile itemSize s.key = .ok (key, st₁))
    (hsize : readInt st₁ itemSize = (size, st₂))
    (hvalue : readString st₂ size s.value = .ok (value, st₃)) :
    loadPair s itemSize = .ok ⟨st₃, key, value, insertNew s.indexObj key value⟩ := by
  refine Loops.bind_eq_ok.mpr ⟨(key, st₁), hkey, ?_⟩
  dsimp only
  rw [hsize]
  exact Loops.bind_eq_ok.mpr ⟨(value, st₃), hvalue, rfl⟩

/-- **A round** takes the pair behind the position and stands behind it, at most at the
end of the file and without having met it. -/
theorem loadPair_eq {f a c : Bytes} {e : Sigma fun _ : Bytes => Bytes} (he : Fits e)
    (hf : f = a ++ (writePair e ++ c)) (key value : Bytes) (indexObj : OutIndex) :
    loadPair ⟨onFile f (a.length + 4), key, value, indexObj⟩ e.1.length =
      .ok ⟨onFile f (a.length + (writePair e).length), e.1, e.2, insertNew indexObj e.1 e.2⟩ := by
  rw [writePair_eq he] at hf ⊢
  have hkey : f = (a ++ intBytes e.1.length) ++ (e.1 ++ (intBytes e.2.length ++ (e.2 ++ c))) := by
    simpa using hf
  have hsize : f = (a ++ intBytes e.1.length ++ e.1) ++ (intBytes e.2.length ++ (e.2 ++ c)) := by
    simpa using hf
  have hvalue : f = (a ++ intBytes e.1.length ++ e.1 ++ intBytes e.2.length) ++ (e.2 ++ c) := by
    simpa using hf
  have hread₁ := readString_mid hkey key
  have hread₂ := readInt_mid he.2 hsize (e.1.length : Int)
  have hread₃ := readString_mid hvalue value
  simp only [List.length_append, length_intBytes] at hread₁ hread₂ hread₃ ⊢
  rw [loadPair_of hread₁ hread₂ hread₃]
  simp only [Nat.add_assoc]

/-- A round that does not meet the end. -/
theorem loadLoop_round (s s' : Loading) {itemSize : Int} {st : InStream UInt8}
    (hsize : readInt s.dbFile 0 = (itemSize, st)) (hne : itemSize ≠ 0)
    (hpair : loadPair { s with dbFile := st } itemSize = .ok s')
    (hend : s'.dbFile.eofbit = false) (fuel : Nat) :
    loadLoop (fuel + 1) s = loadLoop fuel s' := by
  rw [loadLoop]
  generalize readInt s.dbFile 0 = size at hsize ⊢
  subst hsize
  dsimp only
  rw [if_neg hne, hpair]
  change (if s'.dbFile.eofbit = true then _ else _) = _
  rw [hend]
  exact if_neg Bool.false_ne_true

/-- The round that finds the end. -/
theorem loadLoop_end {s : Loading} {st : InStream UInt8} (hsize : readInt s.dbFile 0 = (0, st))
    (fuel : Nat) : loadLoop (fuel + 1) s = .ok { s with dbFile := st } := by
  rw [loadLoop]
  generalize readInt s.dbFile 0 = size at hsize ⊢
  subst hsize
  exact if_pos rfl

/-- The pairs take four bytes each at least. -/
theorem length_le_pairs {l : List (Sigma fun _ : Bytes => Bytes)} :
    l.length ≤ (l.flatMap writePair).length := by
  induction l with
  | nil => exact le_rfl
  | cons e l ih =>
      have hpair : 1 ≤ (writePair e).length := by
        rw [writePair, List.length_append, writeString, List.length_append, length_intBytes]
        omega
      rw [List.flatMap_cons, List.length_append, List.length_cons]
      omega

/-- **The loop** takes one pair after the other.  Behind the last one the end has not been
met yet; the next round finds it, and inserts nothing. -/
theorem loadLoop_eq {l : List (Sigma fun _ : Bytes => Bytes)} (hl : ∀ e ∈ l, Fits e)
    {f a : Bytes} (hf : f = a ++ l.flatMap writePair) {fuel : Nat} (hfuel : l.length < fuel)
    (key value : Bytes) (indexObj : OutIndex) :
    ∃ s, loadLoop fuel ⟨onFile f a.length, key, value, indexObj⟩ = .ok s ∧
      s.indexObj = rebuild l indexObj := by
  induction l generalizing a fuel key value indexObj with
  | nil =>
      obtain ⟨fuel, rfl⟩ := Nat.exists_eq_succ_of_ne_zero (Nat.ne_of_gt hfuel)
      rw [List.flatMap_nil, List.append_nil] at hf
      rw [hf]
      have hrun := loadLoop_end (s := ⟨onFile a a.length, key, value, indexObj⟩) (readInt_end a)
        fuel
      exact ⟨_, hrun, rfl⟩
  | cons e l ih =>
      obtain ⟨fuel, rfl⟩ : ∃ n, fuel = n + 1 := ⟨fuel - 1, by omega⟩
      have he := hl e List.mem_cons_self
      have hpair : f = a ++ (writePair e ++ l.flatMap writePair) := hf
      have hsize : f = a ++ (intBytes e.1.length ++
          (e.1 ++ (intBytes e.2.length ++ e.2) ++ l.flatMap writePair)) := by
        rw [hpair, writePair_eq he, List.append_assoc]
      have hrest : f = (a ++ writePair e) ++ l.flatMap writePair := by
        rw [hpair, List.append_assoc]
      obtain ⟨s, hrun, hs⟩ := ih (fun x hx => hl x (List.mem_cons_of_mem _ hx)) hrest
        (Nat.lt_of_succ_lt_succ hfuel) e.1 e.2 (insertNew indexObj e.1 e.2)
      have hkey : ((e.1.length : Nat) : Int) ≠ 0 := by
        have hpos := he.1.1
        omega
      refine ⟨s, ?_, hs⟩
      rw [List.length_append] at hrun
      have hround := loadLoop_round ⟨onFile f a.length, key, value, indexObj⟩
        ⟨onFile f (a.length + (writePair e).length), e.1, e.2, insertNew indexObj e.1 e.2⟩
        (readInt_mid he.1.2 hsize 0) hkey (loadPair_eq he hpair key value indexObj)
        (onFile_eofbit _ _) fuel
      rw [hround, hrun]

/-- An empty file has nothing in it. -/
theorem openDB_nil : openDB (some []) = .ok ∅ := rfl

/-- A file with something in it is read from its beginning. -/
theorem openDB_some {f : Bytes} (hne : f.length ≠ 0) {s : Loading}
    (hrun : loadLoop (f.length + 1) ⟨onFile f 0, [], [], ∅⟩ = .ok s) :
    openDB (some f) = .ok s.indexObj := by
  have hbegin : (InStream.new.openFile (some f)).tellg = (0, InStream.opened f) := rfl
  have hend : ((InStream.opened f).seekg (InStream.opened f).endPos).tellg =
      ((f.length : Int), ⟨some f, f.length, false, false⟩) := rfl
  rw [openDB, hbegin]
  dsimp only
  rw [hend]
  dsimp only
  rw [if_neg (by omega)]
  exact Loops.bind_eq_ok.mpr ⟨s, hrun, rfl⟩

/-- **The out-enclave index over a restart.**  Whatever bytes the keys and values are, of
any lengths that an `int` holds, `OpenDB` finds in the file of the destructor the same map
and nothing else. -/
theorem out_index_persistence (indexObj : OutIndex)
    (hkeys : ∀ e ∈ indexObj.entries, 1 ≤ e.1.length ∧ e.1.length < 2147483648)
    (hvalues : ∀ e ∈ indexObj.entries, e.2.length < 2147483648) :
    ∃ indexObj', openDB (some (destroy indexObj)) = .ok indexObj' ∧
      ∀ k, indexObj'.lookup k = indexObj.lookup k := by
  have hfits : ∀ e ∈ indexObj.entries, Fits e := fun e he => ⟨hkeys e he, hvalues e he⟩
  by_cases hne : indexObj.entries = []
  · refine ⟨∅, ?_, fun k => ?_⟩
    · rw [destroy_eq, hne]
      exact openDB_nil
    · rw [AList.lookup_empty, AList.lookup, hne]
      rfl
  · have hle := length_le_pairs (l := indexObj.entries)
    have hsize : (indexObj.entries.flatMap writePair).length ≠ 0 := by
      have hpos := List.length_pos_iff.mpr hne
      omega
    obtain ⟨s, hrun, hs⟩ := loadLoop_eq (a := []) hfits (List.nil_append _).symm
      (Nat.lt_succ_of_le hle) [] [] ∅
    refine ⟨s.indexObj, ?_, fun k => ?_⟩
    · rw [destroy_eq]
      exact openDB_some hsize hrun
    · rw [hs]
      exact lookup_rebuild indexObj.nodupKeys k

/-- A map with a zero byte in a key and an empty value. -/
def zeroBytes : OutIndex := ((∅ : OutIndex).insert [0] [0, 0]).insert [0, 1] []

theorem out_index_persistence_small : ∃ indexObj', openDB (some (destroy zeroBytes)) =
    .ok indexObj' ∧ ∀ k, indexObj'.lookup k = zeroBytes.lookup k :=
  out_index_persistence zeroBytes (by decide) (by decide)

end InMemoryDatabase

end Debe
