import Debe.SparseIndex
import Debe.Lib.Cbc
import Debe.Lib.Buffers
import Mathlib.Algebra.Group.End

/-!
# The cipher of the index store

`EcallCrypto` builds the cipher of the index store from unpadded CBC: one pass, the bytes
reversed in place, a second pass.  AES under a key is a permutation of blocks, a parameter
here; `EVP` chains it from an all-zero vector, writes whole blocks only, and a buffer that
is not one of whole blocks ends the enclave.

The sizes of the tables of the store are passed on as an `int`.  Below 2³¹ nothing is lost,
and the code does what the store of encrypted maps does with this cipher.
-/

namespace Debe

open Cbc FirstBinding

/-- A block of AES. -/
abbrev AESBlock := Cbc.Block UInt8 cryptoBlockSize

theorem length_xorBlock (a b : AESBlock) :
    (List.zipWith (· ^^^ ·) a.1 b.1).length = cryptoBlockSize := by
  rw [List.length_zipWith, a.2, b.2, Nat.min_self]

def xorBlock (a b : AESBlock) : AESBlock :=
  ⟨List.zipWith (· ^^^ ·) a.1 b.1, length_xorBlock a b⟩

/-- Combining twice with the same block does nothing. -/
theorem xorBlock_xorBlock (a b : AESBlock) : xorBlock (xorBlock a b) b = a := by
  refine Subtype.ext (List.ext_getElem ?_ fun i hi hi' => ?_)
  · rw [(xorBlock (xorBlock a b) b).2, a.2]
  · simp only [xorBlock, List.getElem_zipWith, UInt8.xor_assoc, UInt8.xor_self, UInt8.xor_zero]

/-- `iv_`, which the constructor fills with zeros. -/
def cryptoIV : AESBlock := ⟨List.replicate cryptoBlockSize 0, List.length_replicate⟩

/-- A `size_t` that is passed as an `int`. -/
def asInt (size : Nat) : Int := (size : Int).bmod 4294967296

theorem asInt_of_lt {size : Nat} (h : size < 2147483648) : asInt size = size :=
  Int.bmod_eq_of_le (by omega) (by omega)

theorem blockSize_pos : 0 < cryptoBlockSize := Nat.succ_pos _

/-! ## The functions of `EcallCrypto` -/

namespace EcallCrypto

variable (aes : Bytes → Equiv.Perm AESBlock)

/-- `EVP_EncryptUpdate` and `EVP_EncryptFinal_ex` without padding. -/
def evpEncrypt (key dataBuffer : Bytes) : Bytes :=
  join (enc xorBlock (aes key) cryptoIV (cut cryptoBlockSize dataBuffer))

/-- `EVP_DecryptUpdate` and `EVP_DecryptFinal_ex` without padding. -/
def evpDecrypt (key ciphertext : Bytes) : Bytes :=
  join (dec xorBlock (aes key).symm cryptoIV (cut cryptoBlockSize ciphertext))

/-- `AESCBCEnc`. -/
def aesCBCEnc (dataBuffer : Bytes) (dataSize : Int) (key : Bytes) : Except Fault Bytes :=
  if dataSize < 0 then ocallSGXExitError "EcallCrypto: Encryption error"
  else
    let ciphertext := evpEncrypt aes key (dataBuffer.take dataSize.toNat)
    if (ciphertext.length : Int) ≠ dataSize then
      ocallSGXExitError "EcallCrypto: encryption output size not equal to origin size"
    else .ok ciphertext

/-- `AESCBCDec`. -/
def aesCBCDec (ciphertext : Bytes) (dataSize : Int) (key : Bytes) : Except Fault Bytes :=
  if dataSize < 0 then ocallSGXExitError "EcallCrypto: Decrypt error"
  else
    let dataBuffer := evpDecrypt aes key (ciphertext.take dataSize.toNat)
    if (dataBuffer.length : Int) ≠ dataSize then
      ocallSGXExitError "EcallCrypto: Decrypt output size not equal to origin size"
    else .ok dataBuffer

/-- The loop of `reverseBytes`, with the two pointers as positions. -/
def reverseLoop (start : Bytes) (lo hi : Int) : Bytes :=
  if lo < hi then
    let swap := start.getD lo.toNat 0
    let start := start.set lo.toNat (start.getD hi.toNat 0)
    reverseLoop (start.set hi.toNat swap) (lo + 1) (hi - 1)
  else start
termination_by (hi - lo).toNat

/-- `reverseBytes`.  The upper pointer of an empty buffer lies before it. -/
def reverseBytes (start : Bytes) (size : Int) : Bytes := reverseLoop start 0 (size - 1)

/-- `IndexAESCMCEnc`.  A buffer of a negative size cannot be made. -/
def indexAESCMCEnc (dataBuffer : Bytes) (dataSize : Int) (key : Bytes) : Except Fault Bytes :=
  if dataSize < 0 then .error .outOfRange
  else do
    let tmpBuffer ← aesCBCEnc aes dataBuffer dataSize key
    aesCBCEnc aes (reverseBytes tmpBuffer dataSize) dataSize key

/-- `IndexAESCMCDec`. -/
def indexAESCMCDec (ciphertext : Bytes) (dataSize : Int) (key : Bytes) : Except Fault Bytes :=
  if dataSize < 0 then .error .outOfRange
  else do
    let tmpBuffer ← aesCBCDec aes ciphertext dataSize key
    aesCBCDec aes (reverseBytes tmpBuffer dataSize) dataSize key

/-! ### The swaps -/

theorem length_reverseLoop (start : Bytes) (lo hi : Int) :
    (reverseLoop start lo hi).length = start.length := by
  fun_induction reverseLoop start lo hi with
  | case1 start lo hi hlt swap start' ih => rw [ih, List.length_set, List.length_set]
  | case2 => rfl

/-- Two elements written over. -/
theorem getD_set_set {start : Bytes} {l h : Nat} (hl : l < start.length) (hh : h < start.length)
    (a b : UInt8) (j : Nat) :
    ((start.set l a).set h b).getD j 0 =
      if j = h then b else if j = l then a else start.getD j 0 := by
  simp only [List.getD_eq_getElem?_getD, List.getElem?_set, List.length_set, if_pos hl, if_pos hh,
    eq_comm (a := j)]
  by_cases hjh : h = j
  · simp [hjh]
  · by_cases hjl : l = j <;> simp [hjh, hjl]

/-- What lies between the pointers is mirrored, and nothing else moves. -/
theorem getD_reverseLoop (start : Bytes) (lo hi : Int) (hlo : 0 ≤ lo) (hhi : hi < start.length)
    (i : Nat) :
    (reverseLoop start lo hi).getD i 0 =
      if lo ≤ i ∧ i ≤ hi then start.getD (lo + hi - i).toNat 0 else start.getD i 0 := by
  fun_induction reverseLoop start lo hi with
  | case1 start lo hi hlt swap start' ih =>
      rw [ih (by omega) (by simp only [start', List.length_set]; omega)]
      simp only [start', swap, getD_set_set (show lo.toNat < start.length by omega)
        (show hi.toNat < start.length by omega)]
      have hmirror : lo + 1 + (hi - 1) - (i : Int) = lo + hi - i := by omega
      rw [hmirror]
      by_cases hin : lo + 1 ≤ i ∧ i ≤ hi - 1
      · rw [if_pos hin, if_neg (by omega), if_neg (by omega), if_pos (by omega)]
      rw [if_neg hin]
      by_cases hupper : (i : Int) = hi
      · have hother : lo + hi - (i : Int) = lo := by omega
        rw [if_pos (by omega), if_pos (by omega), hother]
      by_cases hlower : (i : Int) = lo
      · have hother : lo + hi - (i : Int) = hi := by omega
        rw [if_neg (by omega), if_pos (by omega), if_pos (by omega), hother]
      · rw [if_neg (by omega), if_neg (by omega), if_neg (by omega)]
  | case2 start lo hi hge =>
      split
      · have hi : i = (lo + hi - i).toNat := by omega
        rw [← hi]
      · rfl

/-- **The bytes are reversed**, for every size. -/
theorem reverseBytes_eq (start : Bytes) : reverseBytes start start.length = start.reverse := by
  refine List.ext_getElem ?_ fun i hi hi' => ?_
  · rw [reverseBytes, length_reverseLoop, List.length_reverse]
  · have hat := getD_reverseLoop start 0 (start.length - 1) (Int.le_refl _) (by omega) i
    rw [List.length_reverse] at hi'
    have hpos : ((0 : Int) + (start.length - 1) - i).toNat = start.length - 1 - i := by omega
    rw [if_pos (by omega), ← reverseBytes, hpos] at hat
    rw [List.getElem_eq_getD 0, hat, List.getElem_reverse, List.getElem_eq_getD 0]

/-! ### Whole blocks -/

variable {aes} {key d : Bytes}

theorem length_evpEncrypt (hd : d.length % cryptoBlockSize = 0) :
    (evpEncrypt aes key d).length = d.length := by
  rw [evpEncrypt, length_join, length_enc, length_cut,
    Nat.div_mul_cancel (Nat.dvd_of_mod_eq_zero hd)]

theorem length_evpDecrypt (hd : d.length % cryptoBlockSize = 0) :
    (evpDecrypt aes key d).length = d.length := by
  rw [evpDecrypt, length_join, length_dec, length_cut,
    Nat.div_mul_cancel (Nat.dvd_of_mod_eq_zero hd)]

theorem evpDecrypt_evpEncrypt (hd : d.length % cryptoBlockSize = 0) :
    evpDecrypt aes key (evpEncrypt aes key d) = d := by
  rw [evpDecrypt, evpEncrypt, cut_join blockSize_pos,
    dec_enc xorBlock_xorBlock (aes key).symm_apply_apply, join_cut blockSize_pos hd]

theorem evpEncrypt_evpDecrypt (hd : d.length % cryptoBlockSize = 0) :
    evpEncrypt aes key (evpDecrypt aes key d) = d := by
  rw [evpEncrypt, evpDecrypt, cut_join blockSize_pos,
    enc_dec xorBlock_xorBlock (aes key).apply_symm_apply, join_cut blockSize_pos hd]

theorem aesCBCEnc_eq (hd : d.length % cryptoBlockSize = 0) :
    aesCBCEnc aes d d.length key = .ok (evpEncrypt aes key d) := by
  rw [aesCBCEnc, if_neg (by omega), Int.toNat_natCast, List.take_length]
  exact if_neg (not_not_intro (congrArg Nat.cast (length_evpEncrypt hd)))

theorem aesCBCDec_eq (hd : d.length % cryptoBlockSize = 0) :
    aesCBCDec aes d d.length key = .ok (evpDecrypt aes key d) := by
  rw [aesCBCDec, if_neg (by omega), Int.toNat_natCast, List.take_length]
  exact if_neg (not_not_intro (congrArg Nat.cast (length_evpDecrypt hd)))

end EcallCrypto

/-! ## The cipher of the model -/

open EcallCrypto

/-- An interface whose CBC is that of `EVP`. -/
def Crypto.withCBC (c : Crypto) (aes : Bytes → Equiv.Perm AESBlock) : Crypto :=
  { c with
    aesCBCEnc := evpEncrypt aes
    aesCBCDec := evpDecrypt aes
    length_aesCBCEnc := fun _ _ => length_evpEncrypt
    aesCBCDec_aesCBCEnc := fun _ _ => evpDecrypt_evpEncrypt }

section Cipher

variable {c : Crypto} {aes : Bytes → Equiv.Perm AESBlock} {key d : Bytes}

theorem length_indexAESCMCEnc (hd : d.length % cryptoBlockSize = 0) :
    ((c.withCBC aes).indexAESCMCEnc key d).length = d.length := by
  have hmid : (evpEncrypt aes key d).reverse.length = d.length := by
    rw [List.length_reverse, length_evpEncrypt hd]
  have hblocks : (evpEncrypt aes key d).reverse.length % cryptoBlockSize = 0 := by rw [hmid, hd]
  exact (length_evpEncrypt hblocks).trans hmid

theorem length_indexAESCMCDec (hd : d.length % cryptoBlockSize = 0) :
    ((c.withCBC aes).indexAESCMCDec key d).length = d.length := by
  have hmid : (evpDecrypt aes key d).reverse.length = d.length := by
    rw [List.length_reverse, length_evpDecrypt hd]
  have hblocks : (evpDecrypt aes key d).reverse.length % cryptoBlockSize = 0 := by rw [hmid, hd]
  exact (length_evpDecrypt hblocks).trans hmid

/-- What is decrypted is encrypted to what it was. -/
theorem indexAESCMCEnc_indexAESCMCDec (hd : d.length % cryptoBlockSize = 0) :
    (c.withCBC aes).indexAESCMCEnc key ((c.withCBC aes).indexAESCMCDec key d) = d := by
  have hmid : (evpDecrypt aes key d).reverse.length % cryptoBlockSize = 0 := by
    rw [List.length_reverse, length_evpDecrypt hd, hd]
  calc (c.withCBC aes).indexAESCMCEnc key ((c.withCBC aes).indexAESCMCDec key d)
      = evpEncrypt aes key (evpEncrypt aes key
          (evpDecrypt aes key (evpDecrypt aes key d).reverse)).reverse := rfl
    _ = evpEncrypt aes key (evpDecrypt aes key d).reverse.reverse := by
        rw [evpEncrypt_evpDecrypt hmid]
    _ = d := by rw [List.reverse_reverse, evpEncrypt_evpDecrypt hd]

/-- **On whole blocks the function of the source** is the one of the model. -/
theorem indexAESCMCEnc_eq (hd : d.length % cryptoBlockSize = 0) :
    indexAESCMCEnc aes d d.length key = .ok ((c.withCBC aes).indexAESCMCEnc key d) := by
  have hmid : (evpEncrypt aes key d).reverse.length = d.length := by
    rw [List.length_reverse, length_evpEncrypt hd]
  have hrev : reverseBytes (evpEncrypt aes key d) d.length = (evpEncrypt aes key d).reverse := by
    rw [← reverseBytes_eq, length_evpEncrypt hd]
  rw [indexAESCMCEnc, if_neg (by omega)]
  refine Loops.bind_eq_ok.mpr ⟨_, aesCBCEnc_eq hd, ?_⟩
  rw [hrev, ← hmid]
  exact aesCBCEnc_eq (by rw [hmid, hd])

theorem indexAESCMCDec_eq (hd : d.length % cryptoBlockSize = 0) :
    indexAESCMCDec aes d d.length key = .ok ((c.withCBC aes).indexAESCMCDec key d) := by
  have hmid : (evpDecrypt aes key d).reverse.length = d.length := by
    rw [List.length_reverse, length_evpDecrypt hd]
  have hrev : reverseBytes (evpDecrypt aes key d) d.length = (evpDecrypt aes key d).reverse := by
    rw [← reverseBytes_eq, length_evpDecrypt hd]
  rw [indexAESCMCDec, if_neg (by omega)]
  refine Loops.bind_eq_ok.mpr ⟨_, aesCBCDec_eq hd, ?_⟩
  rw [hrev, ← hmid]
  exact aesCBCDec_eq (by rw [hmid, hd])

end Cipher

/-! ## The tables of the store -/

/-- `BinValue_t` records as they lie in the memory of a `vector`. -/
def tableBytes (es : List BinValue) : Bytes := es.flatMap BinValue.toBytes

/-- The ciphertext of a table: as many zeros as the table has bytes, and `IndexAESCMCEnc`
into them. -/
def encryptTable (aes : Bytes → Equiv.Perm AESBlock) (p : SegmentParams) (table : Bytes) :
    Except Fault Bytes := do
  let ciphertext ← indexAESCMCEnc aes table (asInt table.length) p.indexQueryKey
  return Buffer.overwrite (List.replicate table.length 0) 0 ciphertext

/-- The table of a ciphertext. -/
def decryptTable (aes : Bytes → Equiv.Perm AESBlock) (p : SegmentParams) (ciphertext : Bytes) :
    Except Fault Bytes := do
  let table ← indexAESCMCDec aes ciphertext (asInt ciphertext.length) p.indexQueryKey
  return Buffer.overwrite (List.replicate ciphertext.length 0) 0 table

namespace EcallExtremeBinIndex

/-- `EcallExtremeBinIndex::FetchBin`. -/
def fetchBin (aes : Bytes → Equiv.Perm AESBlock) (p : SegmentParams) (store : OutIndex)
    (binAddress : Bytes) (tmpDedupIndex : DedupIndex) : Except Fault (Option DedupIndex) :=
  match store.lookup binAddress with
  | none => .ok none
  | some cipherBinValue => do
      let binValue ← decryptTable aes p cipherBinValue
      return some (insertAll tmpDedupIndex ((binValues binValue).map BinValue.binding))

/-- `EcallExtremeBinIndex::UpdateBinStore`. -/
def updateBinStore (aes : Bytes → Equiv.Perm AESBlock) (p : SegmentParams) (store : OutIndex)
    (binAddress : Bytes) (tmpDedupIndex : DedupIndex) : Except Fault OutIndex := do
  let binValueBuffer := (p.iterate tmpDedupIndex).map fun e => (⟨e.1, e.2⟩ : BinValue)
  let cipherBinValue ← encryptTable aes p (tableBytes binValueBuffer)
  return store.insert binAddress cipherBinValue

end EcallExtremeBinIndex

namespace EcallSparseIndex

/-- `EcallSparseIndex::LoadManifiest`. -/
def loadManifiest (aes : Bytes → Equiv.Perm AESBlock) (p : SegmentParams) (store : OutIndex)
    (segmentID : Bytes) (dedupIndex : DedupIndex) : Except Fault DedupIndex :=
  match store.lookup segmentID with
  | none => ocallSGXExitError "EcallSparseIndex: cannot find the manifest in the manifest store."
  | some cipherTextManifestValue => do
      let manifestValue ← decryptTable aes p cipherTextManifestValue
      return insertAll dedupIndex ((binValues manifestValue).map BinValue.binding)

/-- `EcallSparseIndex::UpdateManifiestStore`. -/
def updateManifiestStore (aes : Bytes → Equiv.Perm AESBlock) (p : SegmentParams)
    (store : OutIndex) (manifestID : Bytes) (currentBinValueBuffer : List BinValue) :
    Except Fault OutIndex := do
  let cipherManifestValue ← encryptTable aes p (tableBytes currentBinValueBuffer)
  return store.insert manifestID cipherManifestValue

end EcallSparseIndex

/-- The parameters with the CBC of `EVP`. -/
def SegmentParams.withCBC (p : SegmentParams) (aes : Bytes → Equiv.Perm AESBlock) :
    SegmentParams :=
  { p with crypto := p.crypto.withCBC aes }

section Tables

variable {aes : Bytes → Equiv.Perm AESBlock} {p : SegmentParams} {store : OutIndex} {id : Bytes}

theorem length_tableBytes (es : List BinValue) :
    (tableBytes es).length = es.length * binValueSize :=
  Blocks.length_flatMap fun e _ => e.length_toBytes

/-- A table has whole blocks. -/
theorem tableBytes_blocks (es : List BinValue) :
    (tableBytes es).length % cryptoBlockSize = 0 := by
  rw [length_tableBytes]
  exact Nat.mod_eq_zero_of_dvd (Dvd.dvd.mul_left (by decide) _)

/-- A table below 2³¹ bytes is encrypted whole. -/
theorem encryptTable_eq {table : Bytes} (hblocks : table.length % cryptoBlockSize = 0)
    (hsize : table.length < 2147483648) :
    encryptTable aes p table =
      .ok ((p.withCBC aes).crypto.indexAESCMCEnc p.indexQueryKey table) := by
  have hcipher : indexAESCMCEnc aes table (asInt table.length) p.indexQueryKey =
      .ok ((p.withCBC aes).crypto.indexAESCMCEnc p.indexQueryKey table) := by
    rw [asInt_of_lt hsize]
    exact indexAESCMCEnc_eq hblocks
  refine Loops.bind_eq_ok.mpr ⟨_, hcipher, ?_⟩
  refine congrArg Except.ok (Buffer.overwrite_whole ?_)
  rw [List.length_replicate]
  exact (length_indexAESCMCEnc hblocks).ge

/-- A ciphertext below 2³¹ bytes is decrypted whole. -/
theorem decryptTable_eq {ciphertext : Bytes} (hblocks : ciphertext.length % cryptoBlockSize = 0)
    (hsize : ciphertext.length < 2147483648) :
    decryptTable aes p ciphertext =
      .ok ((p.withCBC aes).crypto.indexAESCMCDec p.indexQueryKey ciphertext) := by
  have hcipher : indexAESCMCDec aes ciphertext (asInt ciphertext.length) p.indexQueryKey =
      .ok ((p.withCBC aes).crypto.indexAESCMCDec p.indexQueryKey ciphertext) := by
    rw [asInt_of_lt hsize]
    exact indexAESCMCDec_eq hblocks
  refine Loops.bind_eq_ok.mpr ⟨_, hcipher, ?_⟩
  refine congrArg Except.ok (Buffer.overwrite_whole ?_)
  rw [List.length_replicate]
  exact (length_indexAESCMCDec hblocks).ge

/-- What the store has under an ID can be handed to the cipher. -/
def TableAt (store : OutIndex) (id : Bytes) : Prop :=
  ∀ cipher, store.lookup id = some cipher →
    cipher.length % cryptoBlockSize = 0 ∧ cipher.length < 2147483648

/-- A table that was written is one. -/
theorem tableAt_write {es : List BinValue} (hsize : es.length * binValueSize < 2147483648) :
    TableAt (writeBinValues (p.withCBC aes) store id es) id := by
  intro cipher hcipher
  rw [writeBinValues, AList.lookup_insert] at hcipher
  cases hcipher
  have hlen : ((p.withCBC aes).crypto.indexAESCMCEnc p.indexQueryKey
      (tableBytes es)).length = (tableBytes es).length :=
    length_indexAESCMCEnc (tableBytes_blocks es)
  change ((p.withCBC aes).crypto.indexAESCMCEnc p.indexQueryKey
    (tableBytes es)).length % _ = 0 ∧ ((p.withCBC aes).crypto.indexAESCMCEnc p.indexQueryKey
    (tableBytes es)).length < _
  rw [hlen]
  exact ⟨tableBytes_blocks es, by rwa [length_tableBytes]⟩

/-- **Writing a bin** is what the store of encrypted maps does. -/
theorem updateBinStore_eq {m : DedupIndex}
    (hsize : m.entries.length * binValueSize < 2147483648) :
    EcallExtremeBinIndex.updateBinStore aes p store id m =
      .ok (updateBinStore (p.withCBC aes) store id m) := by
  refine Loops.bind_eq_ok.mpr ⟨_, encryptTable_eq (tableBytes_blocks _) ?_, rfl⟩
  rwa [length_tableBytes, List.length_map, (p.iterate_perm m).length_eq]

/-- **Fetching a bin** is what the store of encrypted maps does. -/
theorem fetchBin_eq (htable : TableAt store id) (m : DedupIndex) :
    EcallExtremeBinIndex.fetchBin aes p store id m =
      .ok (fetchBin (p.withCBC aes) store id m) := by
  unfold EcallExtremeBinIndex.fetchBin fetchBin readBinValues
  cases hlookup : store.lookup id with
  | none => rfl
  | some cipher =>
      obtain ⟨hblocks, hsize⟩ := htable cipher hlookup
      exact Loops.bind_eq_ok.mpr ⟨_, decryptTable_eq hblocks hsize, rfl⟩

/-- **Writing a manifest** is what the store of encrypted maps does. -/
theorem updateManifiestStore_eq {es : List BinValue}
    (hsize : es.length * binValueSize < 2147483648) :
    EcallSparseIndex.updateManifiestStore aes p store id es =
      .ok (updateManifiestStore (p.withCBC aes) store id es) := by
  refine Loops.bind_eq_ok.mpr ⟨_, encryptTable_eq (tableBytes_blocks _) ?_, rfl⟩
  rwa [length_tableBytes]

/-- **Loading a manifest** is what the store of encrypted maps does. -/
theorem loadManifiest_eq (htable : TableAt store id) (m : DedupIndex) :
    EcallSparseIndex.loadManifiest aes p store id m =
      loadManifiest (p.withCBC aes) store m id := by
  unfold EcallSparseIndex.loadManifiest loadManifiest readBinValues
  cases hlookup : store.lookup id with
  | none => rfl
  | some cipher =>
      obtain ⟨hblocks, hsize⟩ := htable cipher hlookup
      exact Loops.bind_eq_ok.mpr ⟨_, decryptTable_eq hblocks hsize, rfl⟩

/-- The first record of a fingerprint is what a table binds it to. -/
theorem dlookup_binding (es : List BinValue) (fp : ChunkHash) :
    (es.map BinValue.binding).dlookup fp =
      (es.find? fun e => e.chunkFp = fp).map BinValue.address := by
  induction es with
  | nil => rfl
  | cons e es ih =>
      rw [List.map_cons, List.find?_cons]
      by_cases hfp : e.chunkFp = fp
      · subst hfp
        simp [BinValue.binding, List.dlookup_cons_eq]
      · rw [BinValue.binding, List.dlookup_cons_ne _ _ (Ne.symm hfp), ih]
        simp [hfp]

/-- A bin is read back. -/
theorem bin_read_back (m : DedupIndex) (hsize : m.entries.length * binValueSize < 2147483648) :
    ∃ store' m', EcallExtremeBinIndex.updateBinStore aes p store id m = .ok store' ∧
      EcallExtremeBinIndex.fetchBin aes p store' id ∅ = .ok (some m') ∧
      ∀ fp, m'.lookup fp = m.lookup fp := by
  obtain ⟨m', hfetch, hlookup⟩ := fetchBin_update (p.withCBC aes) store id m
  have htable : TableAt (updateBinStore (p.withCBC aes) store id m) id :=
    tableAt_write (by rwa [List.length_map, ((p.withCBC aes).iterate_perm m).length_eq])
  exact ⟨_, m', updateBinStore_eq hsize, by rw [fetchBin_eq htable, hfetch], hlookup⟩

/-- A manifest is read back. -/
theorem manifest_read_back (es : List BinValue) (m : DedupIndex)
    (hsize : es.length * binValueSize < 2147483648) :
    ∃ store' m', EcallSparseIndex.updateManifiestStore aes p store id es = .ok store' ∧
      EcallSparseIndex.loadManifiest aes p store' id m = .ok m' ∧
      ∀ fp, m'.lookup fp =
        (m.lookup fp).or ((es.find? fun e => e.chunkFp = fp).map BinValue.address) := by
  have htable : TableAt (updateManifiestStore (p.withCBC aes) store id es) id :=
    tableAt_write hsize
  have hload : loadManifiest (p.withCBC aes) (updateManifiestStore (p.withCBC aes) store id es)
      m id = .ok (insertAll m (es.map BinValue.binding)) := by
    rw [loadManifiest, updateManifiestStore, readBinValues_write]
  refine ⟨_, _, updateManifiestStore_eq hsize, (loadManifiest_eq htable m).trans hload,
    fun fp => ?_⟩
  rw [lookup_insertAll, dlookup_binding]

end Tables

/-- **The encrypted map store.**  Below 2³¹ bytes a bin is fetched as it was written,
whatever the order of its map, and a manifest adds the first of its records for each
fingerprint that was not there.  Its cipher can be undone from both sides on every string
of whole blocks, so strings of one length have the same ciphertext only if they are the
same. -/
theorem encrypted_map_store (aes : Bytes → Equiv.Perm AESBlock) (p : SegmentParams) :
    (∀ (store : OutIndex) (binID : Bytes) (m : DedupIndex),
      m.entries.length * binValueSize < 2147483648 →
      ∃ store' m', EcallExtremeBinIndex.updateBinStore aes p store binID m = .ok store' ∧
        EcallExtremeBinIndex.fetchBin aes p store' binID ∅ = .ok (some m') ∧
        ∀ fp, m'.lookup fp = m.lookup fp) ∧
    (∀ (store : OutIndex) (manifestID : Bytes) (es : List BinValue) (m : DedupIndex),
      es.length * binValueSize < 2147483648 →
      ∃ store' m', EcallSparseIndex.updateManifiestStore aes p store manifestID es = .ok store' ∧
        EcallSparseIndex.loadManifiest aes p store' manifestID m = .ok m' ∧
        ∀ fp, m'.lookup fp =
          (m.lookup fp).or ((es.find? fun e => e.chunkFp = fp).map BinValue.address)) ∧
    (∀ key d : Bytes, d.length % cryptoBlockSize = 0 →
      ∃ c, indexAESCMCEnc aes d d.length key = .ok c ∧ c.length = d.length ∧
        indexAESCMCDec aes c d.length key = .ok d) ∧
    (∀ key c : Bytes, c.length % cryptoBlockSize = 0 →
      ∃ d, indexAESCMCDec aes c c.length key = .ok d ∧ d.length = c.length ∧
        indexAESCMCEnc aes d c.length key = .ok c) ∧
    (∀ key d d' : Bytes, d.length % cryptoBlockSize = 0 → d'.length = d.length →
      indexAESCMCEnc aes d d.length key = indexAESCMCEnc aes d' d.length key → d = d') := by
  refine ⟨fun _ _ m => bin_read_back m, fun _ _ es m => manifest_read_back es m, ?_, ?_, ?_⟩
  · intro key d hd
    have hlen : ((p.crypto.withCBC aes).indexAESCMCEnc key d).length = d.length :=
      length_indexAESCMCEnc hd
    refine ⟨_, indexAESCMCEnc_eq (c := p.crypto) hd, hlen, ?_⟩
    rw [← hlen, indexAESCMCDec_eq (c := p.crypto) (by rw [hlen, hd]),
      (p.crypto.withCBC aes).indexAESCMCDec_indexAESCMCEnc key hd]
  · intro key c hc
    have hlen : ((p.crypto.withCBC aes).indexAESCMCDec key c).length = c.length :=
      length_indexAESCMCDec hc
    refine ⟨_, indexAESCMCDec_eq (c := p.crypto) hc, hlen, ?_⟩
    rw [← hlen, indexAESCMCEnc_eq (c := p.crypto) (by rw [hlen, hc]),
      indexAESCMCEnc_indexAESCMCDec hc]
  · intro key d d' hd hlen heq
    have hd' : d'.length % cryptoBlockSize = 0 := by rw [hlen, hd]
    rw [indexAESCMCEnc_eq (c := p.crypto) hd, ← hlen, indexAESCMCEnc_eq (c := p.crypto) hd'] at heq
    exact (p.crypto.withCBC aes).indexAESCMCEnc_inj hd hd' (Except.ok.inj heq)

/-- Combining every block with a block made from the key. -/
def maskBlock (key : Bytes) : Equiv.Perm AESBlock :=
  Function.Involutive.toPerm
    (fun b => xorBlock b ⟨key.takeD cryptoBlockSize 0, List.takeD_length _ _ _⟩)
    (fun b => xorBlock_xorBlock b _)

/-- A record for the chunk `[n]`. -/
def smallBinValue (n : UInt8) : BinValue where
  chunkFp := smallSegmentParams.fingerprint [n]
  address := RecipeEntry.ofBytes [n]

/-- A bin of one fingerprint, a manifest with one fingerprint twice, and a string of two
blocks. -/
theorem encrypted_map_store_small :
    (∃ store' m', EcallExtremeBinIndex.updateBinStore maskBlock smallSegmentParams ∅ [1]
        ((∅ : DedupIndex).insert (smallBinValue 1).chunkFp (smallBinValue 1).address) = .ok store' ∧
      EcallExtremeBinIndex.fetchBin maskBlock smallSegmentParams store' [1] ∅ = .ok (some m') ∧
      m'.lookup (smallBinValue 1).chunkFp = some (smallBinValue 1).address) ∧
    (∃ store' m', EcallSparseIndex.updateManifiestStore maskBlock smallSegmentParams ∅ [2]
        [smallBinValue 1, smallBinValue 2, ⟨(smallBinValue 1).chunkFp, (smallBinValue 2).address⟩] =
          .ok store' ∧
      EcallSparseIndex.loadManifiest maskBlock smallSegmentParams store' [2] ∅ = .ok m' ∧
      m'.lookup (smallBinValue 1).chunkFp = some (smallBinValue 1).address) ∧
    ∃ c, indexAESCMCEnc maskBlock (List.replicate 32 7) 32 [5] = .ok c ∧ c.length = 32 ∧
      indexAESCMCDec maskBlock c 32 [5] = .ok (List.replicate 32 7) := by
  obtain ⟨hbin, hmanifest, henc, -, -⟩ := encrypted_map_store maskBlock smallSegmentParams
  refine ⟨?_, ?_, henc [5] (List.replicate 32 7) rfl⟩
  · obtain ⟨store', m', hput, hget, hlookup⟩ := hbin ∅ [1]
      ((∅ : DedupIndex).insert (smallBinValue 1).chunkFp (smallBinValue 1).address) (by decide)
    exact ⟨store', m', hput, hget, (hlookup _).trans (AList.lookup_insert _)⟩
  · obtain ⟨store', m', hput, hget, hlookup⟩ := hmanifest ∅ [2]
      [smallBinValue 1, smallBinValue 2, ⟨(smallBinValue 1).chunkFp, (smallBinValue 2).address⟩] ∅
      (by decide)
    exact ⟨store', m', hput, hget, (hlookup _).trans (by simp)⟩

end Debe
