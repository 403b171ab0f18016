import Debe.Structures

/-!
# The cryptographic interface of the enclave

`EcallCrypto` wraps OpenSSL.  What OpenSSL computes is a parameter of the
model; what the program relies on are the laws listed as fields: a digest has
its fixed size, the stream modes keep the length and are inverted by the
matching decryption, and unpadded CBC does the same on whole blocks.

`indexAESCMCEnc` is the enclave's own construction over CBC, so it is defined
here and its injectivity is proved.
-/

namespace Debe

/-- The primitives behind `EcallCrypto`, with their documented behaviour. -/
structure Crypto where
  generateHash : Bytes → Bytes
  encryptWithKey : Bytes → Bytes → Bytes
  decryptWithKey : Bytes → Bytes → Bytes
  encryptWithKeyIV : Bytes → Bytes → Bytes → Bytes
  decryptionWithKeyIV : Bytes → Bytes → Bytes → Bytes
  sessionKeyEnc : Bytes → Bytes → Bytes
  sessionKeyDec : Bytes → Bytes → Bytes
  aesCBCEnc : Bytes → Bytes → Bytes
  aesCBCDec : Bytes → Bytes → Bytes
  length_generateHash : ∀ d, (generateHash d).length = chunkHashSize
  length_encryptWithKey : ∀ key d, (encryptWithKey key d).length = d.length
  decryptWithKey_encryptWithKey : ∀ key d, decryptWithKey key (encryptWithKey key d) = d
  length_encryptWithKeyIV : ∀ key iv d, (encryptWithKeyIV key iv d).length = d.length
  decryptionWithKeyIV_encryptWithKeyIV : ∀ key iv d,
    decryptionWithKeyIV key iv (encryptWithKeyIV key iv d) = d
  length_decryptionWithKeyIV : ∀ key iv d, (decryptionWithKeyIV key iv d).length = d.length
  length_sessionKeyEnc : ∀ key d, (sessionKeyEnc key d).length = d.length
  sessionKeyDec_sessionKeyEnc : ∀ key d, sessionKeyDec key (sessionKeyEnc key d) = d
  length_aesCBCEnc : ∀ key d, d.length % cryptoBlockSize = 0 →
    (aesCBCEnc key d).length = d.length
  aesCBCDec_aesCBCEnc : ∀ key d, d.length % cryptoBlockSize = 0 →
    aesCBCDec key (aesCBCEnc key d) = d

namespace Crypto

variable (c : Crypto)

/-- `IndexAESCMCEnc`: CBC, reverse the bytes, CBC again. -/
def indexAESCMCEnc (key d : Bytes) : Bytes :=
  c.aesCBCEnc key (c.aesCBCEnc key d).reverse

/-- Different strings of the same whole number of blocks have different
ciphertexts, so an index key determines its fingerprint. -/
theorem indexAESCMCEnc_inj {key d d' : Bytes} (hd : d.length % cryptoBlockSize = 0)
    (hd' : d'.length % cryptoBlockSize = 0)
    (h : c.indexAESCMCEnc key d = c.indexAESCMCEnc key d') : d = d' := by
  have hlen : (c.aesCBCEnc key d).reverse.length % cryptoBlockSize = 0 := by
    rw [List.length_reverse, c.length_aesCBCEnc key d hd, hd]
  have hlen' : (c.aesCBCEnc key d').reverse.length % cryptoBlockSize = 0 := by
    rw [List.length_reverse, c.length_aesCBCEnc key d' hd', hd']
  have hmid : (c.aesCBCEnc key d).reverse = (c.aesCBCEnc key d').reverse := by
    have := congrArg (c.aesCBCDec key) h
    rwa [indexAESCMCEnc, indexAESCMCEnc, c.aesCBCDec_aesCBCEnc key _ hlen,
      c.aesCBCDec_aesCBCEnc key _ hlen'] at this
  have hout := congrArg (c.aesCBCDec key) (List.reverse_injective hmid)
  rwa [c.aesCBCDec_aesCBCEnc key d hd, c.aesCBCDec_aesCBCEnc key d' hd'] at hout

/-- `IndexAESCMCDec`: the same steps backwards. -/
def indexAESCMCDec (key d : Bytes) : Bytes :=
  c.aesCBCDec key (c.aesCBCDec key d).reverse

/-- Whole blocks are decrypted to what they were. -/
theorem indexAESCMCDec_indexAESCMCEnc (key : Bytes) {d : Bytes}
    (hd : d.length % cryptoBlockSize = 0) :
    c.indexAESCMCDec key (c.indexAESCMCEnc key d) = d := by
  have hlen : (c.aesCBCEnc key d).reverse.length % cryptoBlockSize = 0 := by
    rw [List.length_reverse, c.length_aesCBCEnc key d hd, hd]
  rw [indexAESCMCDec, indexAESCMCEnc, c.aesCBCDec_aesCBCEnc key _ hlen, List.reverse_reverse,
    c.aesCBCDec_aesCBCEnc key d hd]

/-- An encrypted chunk address decrypts to itself. -/
theorem aesCBCDec_address (key : Bytes) (a : RecipeEntry) :
    RecipeEntry.ofBytes (c.aesCBCDec key (c.aesCBCEnc key a.toBytes)) = a := by
  rw [c.aesCBCDec_aesCBCEnc key _ (by rw [a.length_toBytes]; rfl), a.ofBytes_toBytes]

end Crypto

/-- Mask every byte with the first byte of the key. -/
def maskBytes (key d : Bytes) : Bytes :=
  d.map (· ^^^ key.headD 0)

theorem maskBytes_maskBytes (key d : Bytes) : maskBytes key (maskBytes key d) = d := by
  have hbyte : ∀ b : UInt8, (b ^^^ key.headD 0) ^^^ key.headD 0 = b := by
    intro b
    rw [UInt8.xor_assoc, UInt8.xor_self, UInt8.xor_zero]
  simp only [maskBytes, List.map_map, Function.comp_def, hbyte, List.map_id']

/-- A keyed mask in place of every cipher and a padded copy in place of the
digest: the smallest interface with all the laws, for evaluating runs. -/
def maskCrypto : Crypto where
  generateHash d := d.takeD chunkHashSize 0
  encryptWithKey := maskBytes
  decryptWithKey := maskBytes
  encryptWithKeyIV key _ d := maskBytes key d
  decryptionWithKeyIV key _ d := maskBytes key d
  sessionKeyEnc := maskBytes
  sessionKeyDec := maskBytes
  aesCBCEnc := maskBytes
  aesCBCDec := maskBytes
  length_generateHash d := List.takeD_length _ _ _
  length_encryptWithKey key d := by simp [maskBytes]
  decryptWithKey_encryptWithKey := maskBytes_maskBytes
  length_encryptWithKeyIV key iv d := by simp [maskBytes]
  decryptionWithKeyIV_encryptWithKeyIV key _ d := maskBytes_maskBytes key d
  length_decryptionWithKeyIV key iv d := by simp [maskBytes]
  length_sessionKeyEnc key d := by simp [maskBytes]
  sessionKeyDec_sessionKeyEnc := maskBytes_maskBytes
  length_aesCBCEnc key d _ := by simp [maskBytes]
  aesCBCDec_aesCBCEnc key d _ := maskBytes_maskBytes key d

end Debe
