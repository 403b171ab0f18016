import Debe.KeyRecipes
import Debe.Lib.Rsa

/-!
# Blind signatures between the client and the key manager

`DecorateFP` multiplies a fingerprint by `r ^ e`, `DupLESSKeyManager::Run` raises every slot of
the request to the power `d`, and `Elimination` multiplies by the inverse of `r`.  All three
pass numbers on as strings of `RSA_KEY_SIZE` bytes with zeros in front, so nothing is lost on
the way and the result is the signature of the fingerprint, whatever `r` was.
-/

namespace Debe

open LittleEndian

/-- The RSA key of the key manager. -/
structure RSAKeyPair extends RSAPublicKey where
  serverKeyD : Nat
  p : Nat
  q : Nat
  prime_p : p.Prime
  prime_q : q.Prime
  ne : p ≠ q
  clientKeyN_eq : clientKeyN = p * q
  inverse : clientKeyE * serverKeyD ≡ 1 [MOD Nat.lcm (p - 1) (q - 1)]

/-! ## The key manager -/

/-- The number in a slot, raised to the private exponent. -/
def signSlot (key : RSAKeyPair) (slot : Bytes) : Except Fault Bytes :=
  let result := bnBin2bn slot
  let result := result ^ key.serverKeyD % key.clientKeyN
  bnBn2bin result

/-- The body of the loop of `DupLESSKeyManager::Run`; the offset is computed in 32 bits. -/
def signStep (key : RSAKeyPair) (dataBuffer : Bytes) (i : Nat) : Except Fault Bytes := do
  let slot ← inRange (Buffer.read dataBuffer (i * rsaKeySize % 2 ^ 32) rsaKeySize)
  let buffer ← signSlot key slot
  inRange (Buffer.write dataBuffer (i * rsaKeySize % 2 ^ 32) buffer)

/-- The loop over the slots of a request. -/
def signRequest (key : RSAKeyPair) (recvRSANum : Nat) (dataBuffer : Bytes) :
    Except Fault Bytes :=
  (List.range recvRSANum).foldlM (signStep key) dataBuffer

/-! ## Numbers as bytes -/

/-- A number in `RSA_KEY_SIZE` bytes, the most significant first. -/
def bnBytes (n : Nat) : Bytes := (encode rsaKeySize n).reverse

@[simp] theorem length_bnBytes (n : Nat) : (bnBytes n).length = rsaKeySize := by
  rw [bnBytes, List.length_reverse, length_encode]

theorem bnBn2bin_eq {n : Nat} (hn : n < 256 ^ rsaKeySize) : bnBn2bin n = .ok (bnBytes n) :=
  if_pos hn

/-- A number that fits is read back. -/
theorem bnBin2bn_bnBytes {n : Nat} (hn : n < 256 ^ rsaKeySize) : bnBin2bn (bnBytes n) = n := by
  rw [bnBin2bn, bnBytes, List.reverse_reverse, decode_encode_of_lt hn]

variable (key : RSAKeyPair)

/-- A blinded fingerprint. -/
def blinded (r : Nat) (fp : Bytes) : Bytes :=
  bnBytes (bnBin2bn fp * (r ^ key.clientKeyE % key.clientKeyN) % key.clientKeyN)

/-- The signature of what is in a slot. -/
def signature (slot : Bytes) : Bytes :=
  bnBytes (bnBin2bn slot ^ key.serverKeyD % key.clientKeyN)

theorem length_blinded (r : Nat) (fp : Bytes) : (blinded key r fp).length = rsaKeySize :=
  length_bnBytes _

theorem length_signature (slot : Bytes) : (signature key slot).length = rsaKeySize :=
  length_bnBytes _

theorem decorateFP_eq (r : Nat) (fp : Bytes) :
    decorateFP key.toRSAPublicKey r fp = .ok (blinded key r fp) :=
  bnBn2bin_eq (key.mod_lt _)

theorem signSlot_eq (slot : Bytes) : signSlot key slot = .ok (signature key slot) :=
  bnBn2bin_eq (key.mod_lt _)

theorem elimination_eq (inv : Nat) (slot : Bytes) :
    elimination key.toRSAPublicKey inv slot =
      .ok (bnBytes (bnBin2bn slot * inv % key.clientKeyN)) :=
  bnBn2bin_eq (key.mod_lt _)

/-- **One slot.**  Blinded, signed and unblinded, a fingerprint is signed. -/
theorem elimination_signature {r inv : Nat} (hinv : r * inv ≡ 1 [MOD key.clientKeyN])
    (fp : Bytes) :
    elimination key.toRSAPublicKey inv (signature key (blinded key r fp)) =
      .ok (bnBytes (bnBin2bn fp ^ key.serverKeyD % key.clientKeyN)) := by
  have hid : (r ^ key.clientKeyE) ^ key.serverKeyD ≡ r [MOD key.clientKeyN] := by
    rw [key.clientKeyN_eq]
    exact Rsa.pow_pow_modEq key.prime_p key.prime_q key.ne key.inverse r
  rw [elimination_eq, signature, blinded, bnBin2bn_bnBytes (key.mod_lt _),
    bnBin2bn_bnBytes (key.mod_lt _)]
  exact congrArg (fun n => Except.ok (bnBytes n)) (Rsa.unblind hid hinv (bnBin2bn fp))

/-! ## A request -/

/-- A step of the loop signs its slot and leaves the others. -/
theorem signStep_ok {done slot : Bytes} {i : Nat} (hdone : done.length = i * rsaKeySize)
    (hslot : slot.length = rsaKeySize) (hi : i * rsaKeySize < 2 ^ 32) (behind : Bytes) :
    signStep key (done ++ (slot ++ behind)) i = .ok (done ++ (signature key slot ++ behind)) := by
  have hread := Buffer.read_mid done slot behind
  have hwrite := Buffer.write_mid done behind
    ((length_signature key slot).trans hslot.symm)
  rw [hdone, hslot] at hread
  rw [hdone] at hwrite
  rw [signStep, Nat.mod_eq_of_lt hi, hread]
  refine Loops.bind_eq_ok.mpr ⟨slot, rfl, Loops.bind_eq_ok.mpr ⟨_, signSlot_eq key slot, ?_⟩⟩
  rw [hwrite]
  rfl

/-- **The loop** signs every slot of a request. -/
theorem signRequest_ok {slots : List Bytes} (hslots : ∀ slot ∈ slots, slot.length = rsaKeySize)
    (hcount : slots.length * rsaKeySize ≤ 2 ^ 32) (behind : Bytes) :
    signRequest key slots.length (slots.flatten ++ behind) =
      .ok ((slots.map (signature key)).flatten ++ behind) := by
  obtain ⟨dataBuffer, hrun, hall⟩ := Loops.foldlM_range (f := signStep key) (n := slots.length)
    (P := fun n dataBuffer => dataBuffer =
      ((slots.take n).map (signature key)).flatten ++ ((slots.drop n).flatten ++ behind)) rfl (by
    rintro n _ hlt rfl
    have hdone : ((slots.take n).map (signature key)).flatten.length = n * rsaKeySize := by
      rw [← List.flatMap_def, Blocks.length_flatMap fun slot _ => length_signature key slot,
        List.length_take_of_le hlt.le]
    have hbound : n * rsaKeySize < 2 ^ 32 :=
      (Nat.mul_lt_mul_of_pos_right hlt (Nat.succ_pos _)).trans_le hcount
    have hstep := signStep_ok key hdone (hslots _ (List.getElem_mem hlt)) hbound
      ((slots.drop (n + 1)).flatten ++ behind)
    refine ⟨_, by rw [List.drop_eq_getElem_cons hlt, List.flatten_cons, List.append_assoc, hstep],
      ?_⟩
    rw [List.take_succ_eq_append_getElem hlt, List.map_append, List.flatten_append,
      List.map_singleton, List.flatten_singleton, List.append_assoc])
  rw [List.take_length, List.drop_length, List.flatten_nil, List.nil_append] at hall
  exact hall ▸ hrun

/-- A fingerprint, and what it is blinded with. -/
structure Blinding where
  fp : Bytes
  r : Nat
  inv : Nat

/-- **The key does not depend on the blinding.**  Every slot of a request that the key manager
signed comes out of `Elimination` as the signature of its fingerprint. -/
theorem dupless_blinding_independent (slots : List Blinding)
    (hinv : ∀ b ∈ slots, b.r * b.inv ≡ 1 [MOD key.clientKeyN])
    (hcount : slots.length * rsaKeySize ≤ 2 ^ 32) (behind : Bytes) :
    ∃ request reply : List Bytes,
      List.Forall₂ (fun b slot => decorateFP key.toRSAPublicKey b.r b.fp = .ok slot) slots
        request ∧
      signRequest key slots.length (request.flatten ++ behind) =
        .ok (reply.flatten ++ behind) ∧
      List.Forall₂ (fun b slot => slot.length = rsaKeySize ∧
        elimination key.toRSAPublicKey b.inv slot =
          .ok (bnBytes (bnBin2bn b.fp ^ key.serverKeyD % key.clientKeyN))) slots reply := by
  have hslots : ∀ slot ∈ slots.map fun b => blinded key b.r b.fp,
      slot.length = rsaKeySize := by
    intro slot hslot
    obtain ⟨b, -, rfl⟩ := List.mem_map.mp hslot
    exact length_blinded key b.r b.fp
  have hlen : (slots.map fun b => blinded key b.r b.fp).length = slots.length :=
    List.length_map _
  have hsign := signRequest_ok key hslots (hlen.symm ▸ hcount) behind
  rw [hlen, List.map_map] at hsign
  refine ⟨_, _, ?_, hsign, ?_⟩
  · rw [List.forall₂_map_right_iff, List.forall₂_same]
    exact fun b _ => decorateFP_eq key b.r b.fp
  · rw [List.forall₂_map_right_iff, List.forall₂_same]
    intro b hb
    dsimp only [Function.comp_apply]
    exact ⟨length_signature key _, elimination_signature key (hinv b hb) b.fp⟩

theorem three_ne_five : (3 : Nat) ≠ 5 := by decide

/-- Three times five, with both exponents three. -/
def smallKeyPair : RSAKeyPair where
  toRSAPublicKey := smallPublicKey
  serverKeyD := 3
  p := 3
  q := 5
  prime_p := Nat.prime_three
  prime_q := Nat.prime_five
  ne := three_ne_five
  clientKeyN_eq := rfl
  inverse := rfl

/-- One fingerprint under two blindings. -/
def smallBlindings : List Blinding :=
  [⟨List.replicate chunkHashSize 7, 2, 8⟩, ⟨List.replicate chunkHashSize 7, 4, 4⟩]

theorem dupless_blinding_independent_small :
    ∃ request reply : List Bytes,
      List.Forall₂ (fun b slot => decorateFP smallKeyPair.toRSAPublicKey b.r b.fp = .ok slot)
        smallBlindings request ∧
      signRequest smallKeyPair smallBlindings.length (request.flatten ++ []) =
        .ok (reply.flatten ++ []) ∧
      List.Forall₂ (fun b slot => slot.length = rsaKeySize ∧
        elimination smallKeyPair.toRSAPublicKey b.inv slot =
          .ok (bnBytes (bnBin2bn b.fp ^ smallKeyPair.serverKeyD % smallKeyPair.clientKeyN)))
        smallBlindings reply :=
  dupless_blinding_independent smallKeyPair smallBlindings (by decide) (by decide) []

/-! ## The keys of a batch -/

/-- The reply to a request, of which every slot is signed. -/
def signedReply (request : Bytes) : Bytes :=
  match signRequest key (request.length / rsaKeySize) request with
  | .ok dataBuffer => dataBuffer
  | .error _ => request

/-- What the loop returns has the size of the request. -/
theorem length_signedReply (request : Bytes) :
    (signedReply key request).length = request.length := by
  rw [signedReply]
  split
  · next dataBuffer hrun =>
      refine Loops.foldlM_keeps (P := fun buf : Bytes => buf.length = request.length) rfl ?_ hrun
      intro buf i buf' hbuf hstep
      obtain ⟨slot, -, hstep⟩ := Loops.bind_eq_ok.mp hstep
      obtain ⟨signed, -, hstep⟩ := Loops.bind_eq_ok.mp hstep
      rw [length_of_write (inRange_eq_ok.mp hstep), hbuf]
  · rfl

theorem signedReply_eq {slots : List Bytes} (hslots : ∀ slot ∈ slots, slot.length = rsaKeySize)
    (hcount : slots.length * rsaKeySize ≤ 2 ^ 32) :
    signedReply key slots.flatten = (slots.map (signature key)).flatten := by
  have hlen : slots.flatten.length = slots.length * rsaKeySize := by
    rw [← List.flatMap_id]
    exact Blocks.length_flatMap hslots
  have hnum : slots.flatten.length / rsaKeySize = slots.length := by
    rw [hlen]
    exact Nat.mul_div_cancel _ (Nat.succ_pos _)
  have hsign := signRequest_ok key hslots hcount []
  rw [List.append_nil, List.append_nil] at hsign
  rw [signedReply, hnum, hsign]

/-- `DupLESSKeyManager`, as the client meets it. -/
def duplessKeyManager : KeyManager where
  reply requests := ⟨.keyManagerKeyGenReply, signedReply key (requests.getLastD [])⟩
  messageType_reply _ := rfl
  length_reply _ _ := by
    dsimp only
    rw [List.getLastD_concat, length_signedReply]

/-- An inverse where there is one. -/
theorem bnModInverse_spec {r n : Nat} (hn : 0 < n) (hgcd : Nat.gcd r n = 1) :
    r * bnModInverse r n ≡ 1 [MOD n] := by
  have hne : (n : Int) ≠ 0 := Int.natCast_ne_zero.mpr (Nat.ne_of_gt hn)
  have hcast : ((bnModInverse r n : Nat) : Int) = Nat.gcdA r n % n := by
    rw [bnModInverse, if_pos hgcd]
    exact Int.toNat_of_nonneg (Int.emod_nonneg _ hne)
  have hbezout : (1 : Int) = r * Nat.gcdA r n + n * Nat.gcdB r n := by
    have hab := Nat.gcd_eq_gcd_ab r n
    rwa [hgcd] at hab
  rw [← Int.natCast_modEq_iff]
  push_cast
  rw [hcast]
  calc (r : Int) * (Nat.gcdA r n % n) ≡ r * Nat.gcdA r n [ZMOD n] :=
        (Int.mod_modEq _ _).mul_left _
    _ = 1 + n * (-Nat.gcdB r n) := by rw [mul_neg]; omega
    _ ≡ 1 [ZMOD n] := by simp [Int.ModEq]

variable {key} {p : BaselineParams} {chunks : List Bytes} {plain : FrameBuffer} {size : Nat}

/-- The slots of a request, one behind the other. -/
theorem askKeys_payload {slots : Nat} {block : Nat → Bytes → Bytes} {b b' : FrameBuffer}
    (hplain : FrameBuffer.Written size chunks plain) (hdata : b.dataSize = 0)
    (hblock : ∀ i chunk, (block i chunk).length = slots) (hcount : chunks.length * slots < 2 ^ 32)
    (hrun : forChunks (askKey slots fun i chunk => .ok (block i chunk)) plain b = .ok b') :
    b'.payload = chunks.zipIdx.flatMap fun c => block c.2 c.1 := by
  have hlen : ∀ l : List Bytes, (l.zipIdx.flatMap fun c => block c.2 c.1).length =
      l.length * slots := by
    intro l
    rw [Blocks.length_flatMap fun c _ => hblock c.2 c.1, List.length_zipIdx]
  obtain ⟨hsize, hbegins⟩ := forChunks_keeps
    (P := fun pre (b : FrameBuffer) => b.dataSize = UInt32.ofNat (pre.length * slots) ∧
      (pre.zipIdx.flatMap fun c => block c.2 c.1) <+: b.dataBuffer) hplain
    ⟨by rw [hdata, List.length_nil, Nat.zero_mul]; rfl, List.nil_prefix⟩ (by
      rintro pre chunk rest b b' rfl ⟨hsize, hbegins⟩ hbody
      obtain ⟨_, ⟨⟩, hbody⟩ := Loops.bind_eq_ok.mp hbody
      obtain ⟨dataBuffer, hwrite, hbody⟩ := Loops.bind_eq_ok.mp hbody
      cases hbody
      have hlt : pre.length * slots < 2 ^ 32 := by
        refine Nat.lt_of_le_of_lt (Nat.mul_le_mul_right _ ?_) hcount
        rw [List.length_append]
        exact Nat.le_add_right _ _
      have hwrite := inRange_eq_ok.mp hwrite
      rw [hsize, UInt32.toNat_ofNat_of_lt' hlt, ← hlen pre] at hwrite
      refine ⟨?_, ?_⟩
      · rw [hsize, List.length_append, List.length_singleton, Nat.succ_mul, UInt32.ofNat_add]
      · rw [List.zipIdx_append, List.flatMap_append]
        simpa using Buffer.prefix_of_write hbegins hwrite) hrun
  rw [FrameBuffer.payload, hsize, UInt32.toNat_ofNat_of_lt' hcount, ← hlen chunks]
  exact (List.prefix_iff_eq_take.mp hbegins).symm

/-- The key of a chunk: the hash of the signature of its hash. -/
def duplessChunkKey (p : BaselineParams) (key : RSAKeyPair) (chunk : Bytes) : Bytes :=
  p.crypto.generateHash (signature key (p.crypto.generateHash chunk))

/-- After the round the buffer begins with the signed slots. -/
theorem keyGenRound_signed {draws : Nat} {dae dae' : DAE}
    (hkey : p.publicKey = key.toRSAPublicKey) (hmanager : p.keyManager = duplessKeyManager key)
    (hplain : FrameBuffer.Written size chunks plain) (hdata : dae.keyGenBuf.dataSize = 0)
    (hcount : chunks.length * rsaKeySize < 2 ^ 32)
    (hrun : keyGenRound p rsaKeySize (duplessBlock p draws) plain dae = .ok dae') :
    (chunks.zipIdx.flatMap fun c => signature key
      (blinded key (p.rand (draws + c.2)) (p.crypto.generateHash c.1))) <+:
      dae'.keyGenBuf.dataBuffer := by
  have hblock : duplessBlock p draws = fun i chunk =>
      .ok (blinded key (p.rand (draws + i)) (p.crypto.generateHash chunk)) := by
    funext i chunk
    rw [duplessBlock, hkey, decorateFP_eq]
  rw [hblock] at hrun
  obtain ⟨b, hloop, hrun⟩ := Loops.bind_eq_ok.mp hrun
  have hpayload := askKeys_payload hplain hdata (fun _ _ => length_blinded key _ _) hcount hloop
  dsimp only at hrun
  split at hrun
  · cases hrun
  obtain ⟨dataBuffer, hwrite, hrun⟩ := Loops.bind_eq_ok.mp hrun
  cases hrun
  have hreply : (p.keyManager.reply (dae.requests ++ [b.payload])).data =
      chunks.zipIdx.flatMap fun c => signature key
        (blinded key (p.rand (draws + c.2)) (p.crypto.generateHash c.1)) := by
    have hslots : ∀ slot ∈ chunks.zipIdx.map fun c =>
        blinded key (p.rand (draws + c.2)) (p.crypto.generateHash c.1),
        slot.length = rsaKeySize := by
      intro slot hslot
      obtain ⟨c, -, rfl⟩ := List.mem_map.mp hslot
      exact length_blinded key _ _
    have hle : (chunks.zipIdx.map fun c =>
        blinded key (p.rand (draws + c.2)) (p.crypto.generateHash c.1)).length * rsaKeySize ≤
          2 ^ 32 := by
      rw [List.length_map, List.length_zipIdx]
      exact hcount.le
    have hsigned := signedReply_eq key hslots hle
    rw [List.map_map, Function.comp_def] at hsigned
    rw [hmanager, duplessKeyManager]
    dsimp only
    rw [List.getLastD_concat, hpayload, List.flatMap_def, hsigned, List.flatMap_def]
  have hwritten := Buffer.prefix_of_write List.nil_prefix (inRange_eq_ok.mp hwrite)
  rwa [List.nil_append, hreply] at hwritten

/-- The slot of a chunk in the reply. -/
theorem replySlot_signed {draws i : Nat} {dae : DAE} (draws' : Nat) {chunk : Bytes}
    (hsigned : (chunks.zipIdx.flatMap fun c => signature key
      (blinded key (p.rand (draws + c.2)) (p.crypto.generateHash c.1))) <+:
        dae.keyGenBuf.dataBuffer)
    (hcount : chunks.length * rsaKeySize < 2 ^ 32) (hget : chunks[i]? = some chunk) :
    replySlot rsaKeySize { dae with draws := draws' } i = .ok (signature key
      (blinded key (p.rand (draws + i)) (p.crypto.generateHash chunk))) := by
  have hsizes : ∀ c ∈ chunks.zipIdx, (signature key
      (blinded key (p.rand (draws + c.2)) (p.crypto.generateHash c.1))).length = rsaKeySize :=
    fun c _ => length_signature key _
  have hpair : chunks.zipIdx[i]? = some (chunk, i) := by
    rw [List.getElem?_zipIdx, hget, Nat.zero_add]
    rfl
  obtain ⟨hi, -⟩ := List.getElem?_eq_some_iff.mp hget
  have hmod : i * rsaKeySize % 2 ^ 32 = i * rsaKeySize :=
    Nat.mod_eq_of_lt ((Nat.mul_le_mul_right _ hi.le).trans_lt hcount)
  have hle := (Blocks.block_le hsizes hpair).trans hsigned.length_le
  rw [replySlot, hmod, Buffer.read, if_pos hle, Blocks.block_of_prefix hsigned hsizes hpair]
  rfl

/-- The key that the client derives from its slot. -/
theorem duplessKey_eq {draws i : Nat} {dae : DAE} {chunk : Bytes}
    (hkey : p.publicKey = key.toRSAPublicKey)
    (hgcd : Nat.gcd (p.rand (draws + i)) key.clientKeyN = 1)
    (hslot : replySlot rsaKeySize dae i = .ok (signature key
      (blinded key (p.rand (draws + i)) (p.crypto.generateHash chunk)))) (chunkData : Bytes) :
    duplessKey p draws dae i chunkData = .ok (duplessChunkKey p key chunk) := by
  have helim := elimination_signature key (bnModInverse_spec key.clientKeyN_pos hgcd)
    (p.crypto.generateHash chunk)
  rw [duplessKey, hslot, hkey]
  refine Loops.bind_eq_ok.mpr ⟨_, rfl, ?_⟩
  dsimp only
  rw [helim]
  rfl

/-- **Every client derives the same keys.**  Whatever numbers were drawn, as long as they have
inverses, a batch adds to the key recipe file the hashes of the signed hashes of its chunks. -/
theorem dupless_batch_keys {s s' : BatchState} (hkey : p.publicKey = key.toRSAPublicKey)
    (hmanager : p.keyManager = duplessKeyManager key)
    (hplain : FrameBuffer.Written size chunks plain) (hdata : s.dae.keyGenBuf.dataSize = 0)
    (hcount : chunks.length * rsaKeySize < 2 ^ 32)
    (hgcd : ∀ i < chunks.length, Nat.gcd (p.rand (s.dae.draws + i)) key.clientKeyN = 1)
    (hrun : processBatchChunk p .dupless plain s = .ok s') :
    s'.dae.keyRecipeFile = s.dae.keyRecipeFile ++ chunks.flatMap (duplessChunkKey p key) := by
  obtain ⟨dae, hround, hrun⟩ := Loops.bind_eq_ok.mp hrun
  obtain ⟨s₁, hloop, hrun⟩ := Loops.bind_eq_ok.mp hrun
  cases hrun
  have hsigned := keyGenRound_signed hkey hmanager hplain hdata hcount hround
  have hfile := keyGenRound_inv hround
  have hbody : ∀ pre chunk rest (t t' : BatchState), chunks = pre ++ chunk :: rest →
      t.dae.keyRecipeFile = s.dae.keyRecipeFile ++ pre.flatMap (duplessChunkKey p key) →
      sealChunk (duplessKey p s.dae.draws
        { dae with draws := s.dae.draws + plain.currentItemNum.toNat })
        p.crypto.encryptWithKey t pre.length chunk = .ok t' →
      t'.dae.keyRecipeFile =
        s.dae.keyRecipeFile ++ (pre ++ [chunk]).flatMap (duplessChunkKey p key) := by
    rintro pre chunk rest t t' hcut ht hseal
    obtain ⟨k, -, hk, -, hadded, -⟩ := sealChunk_inv hseal
    have hget : chunks[pre.length]? = some chunk := by simp [hcut]
    have hslot := replySlot_signed (s.dae.draws + plain.currentItemNum.toNat) hsigned hcount hget
    obtain ⟨hlt, -⟩ := List.getElem?_eq_some_iff.mp hget
    rw [duplessKey_eq hkey (hgcd _ hlt) hslot] at hk
    rw [hadded, ht, ← Except.ok.inj hk, List.flatMap_append, List.flatMap_singleton,
      List.append_assoc]
  have hkept := forChunks_keeps (P := fun pre (t : BatchState) => t.dae.keyRecipeFile =
    s.dae.keyRecipeFile ++ pre.flatMap (duplessChunkKey p key)) hplain
    (hfile.trans (List.append_nil _).symm) hbody hloop
  exact hkept

end Debe
