import Debe.TEDKeyManager

/-!
# The keys of a whole upload

What every call of `ProcessBatchChunk` keeps of the chunks that were encrypted so far, with their
keys, and of the `AbsDAE`, holds at the end of an upload: the sender calls it for each batch, once
and in order.

With the key manager of `DupLESSDAE` the key of a chunk depends on the chunk alone.  So clients
that blind with other numbers, in batches of other sizes, send the same ciphertext for it.
-/

namespace Debe

open Records FrameBuffer

/-! ## The rule -/

/-- A batch keeps what is known of the chunks that were encrypted so far and of the `AbsDAE`. -/
def BatchKeeps (p : BaselineParams) (methodType : DAEType)
    (Good : List KeyedChunk → DAE → Prop) : Prop :=
  ∀ (done ks : List KeyedChunk) (plain : FrameBuffer) (s s' : BatchState), Good done s.dae →
    Written (chunkBufferSize p) (ks.map KeyedChunk.chunk) plain →
    ks.length ≤ p.sendChunkBatchSize →
    s.dae.Ready (p.sendChunkBatchSize * slotSize methodType) →
    processBatchChunk p methodType plain s = .ok s' →
    s'.dae.keyRecipeFile = s.dae.keyRecipeFile ++ ks.flatMap KeyedChunk.key →
    Good (done ++ ks) s'.dae

variable {p : BaselineParams} {methodType : DAEType} {Good : List KeyedChunk → DAE → Prop}
  {most : Nat} {groups : List (List KeyedChunk)} {rest seen batch : List Bytes}
  {s s' t : BaselineSender} {entries : Nat}

theorem sealPlainChunks_keeps (hkeeps : BatchKeeps p methodType Good) {done ks : List KeyedChunk}
    (hgood : Good done s.dae) (hbatch : BatchWaits p batch s)
    (hs : SenderReady p methodType entries s) (hseal : sealPlainChunks p methodType s = .ok t)
    (hks : ks.map KeyedChunk.chunk = batch)
    (hfile : t.dae.keyRecipeFile = s.dae.keyRecipeFile ++ ks.flatMap KeyedChunk.key) :
    Good (done ++ ks) t.dae := by
  rw [sealPlainChunks, if_pos hbatch.currentItemNum_ne] at hseal
  obtain ⟨b, hprocess, hseal⟩ := Loops.bind_eq_ok.mp hseal
  obtain ⟨recipe, -, hseal⟩ := Loops.bind_eq_ok.mp hseal
  cases hseal
  have hlen : ks.length ≤ p.sendChunkBatchSize := by
    rw [← List.length_map, hks]
    exact hbatch.le
  exact hkeeps done ks s.plain ⟨s.dae, s.cipher, s.recipe⟩ b hgood (hks ▸ hbatch.plain) hlen hs.dae
    hprocess hfile

/-- A chunk. -/
theorem addChunk_keeps (hkeeps : BatchKeeps p methodType Good) (hmost : most ≤ 2 ^ 32)
    (h : Uploading p methodType most seen groups rest s) (hgood : Good groups.flatten s.dae)
    (chunk : Chunk) {post : List Bytes}
    (hbatches : BatchesLE p.sendChunkBatchSize most (seen ++ chunk.val :: post)) :
    ∃ s' groups' rest', addChunk p methodType s chunk = .ok s' ∧
      Uploading p methodType most (seen ++ [chunk.val]) groups' rest' s' ∧
      Good groups'.flatten s'.dae := by
  have hle := h.filling.frames_le hbatches
  obtain ⟨plain, happend, hplain⟩ := h.append hmost chunk hle
  by_cases hmod : plain.currentItemNum.toNat % p.sendChunkBatchSize = 0
  · obtain ⟨s₂, ks, hsend, hks, hadd, hs₂⟩ := addChunk_full h hle happend hplain hmod
    obtain ⟨t, hseal, hkept⟩ := sendChunkBatch_inv hsend
    obtain ⟨entries, hready⟩ := h.ready
    have hfile : t.dae.keyRecipeFile =
        s.dae.keyRecipeFile ++ ks.flatMap KeyedChunk.key := by
      have hall := hs₂.keyRecipeFile
      rw [List.flatten_append, List.flatten_singleton, List.flatMap_append,
        ← h.keyRecipeFile] at hall
      rw [← hkept.dae]
      exact hall
    refine ⟨_, _, _, hadd, hs₂, ?_⟩
    rw [List.flatten_append, List.flatten_singleton]
    dsimp only
    rw [hkept.dae]
    exact sealPlainChunks_keeps (s := { s with plain := plain }) hkeeps hgood (hplain.waits s)
      (hready.withPlain plain) hseal hks hfile
  · obtain ⟨hadd, hs⟩ := addChunk_waits h happend hplain hmod
    exact ⟨_, _, _, hadd, hs, hgood⟩

/-- The end. -/
theorem finishUpload_keeps (hkeeps : BatchKeeps p methodType Good)
    (hmost : (frames rest).length ≤ most) (h : Uploading p methodType most seen groups rest s)
    (hgood : Good groups.flatten s.dae) (recipeHead : FileRecipeHead) :
    ∃ s' groups', finishUpload p methodType s recipeHead = .ok s' ∧
      UploadDone p methodType most seen groups' s' ∧ Good groups'.flatten s'.dae := by
  by_cases hrest : rest = []
  · subst hrest
    obtain ⟨s', hrun, hdone⟩ := finishUpload_empty h recipeHead
    obtain ⟨t, hseal, hkept, -⟩ := finishUpload_inv hrun
    obtain rfl : s = t := Except.ok.inj (h.seal_empty.symm.trans hseal)
    exact ⟨s', groups, hrun, hdone, hkept.dae ▸ hgood⟩
  · obtain ⟨s', ks, hrun, hdone⟩ := finishUpload_waiting hrest hmost h recipeHead
    obtain ⟨t, hseal, hkept, -⟩ := finishUpload_inv hrun
    obtain ⟨entries, hready⟩ := h.ready
    have hflat : (groups ++ [ks]).flatten = groups.flatten ++ ks := by
      rw [List.flatten_append, List.flatten_singleton]
    have hks : ks.map KeyedChunk.chunk = rest := by
      have hchunks := hdone.chunks
      rw [hflat, List.map_append, ← h.filling.eq, List.map_flatten] at hchunks
      exact List.append_cancel_left hchunks
    have hfile : t.dae.keyRecipeFile =
        s.dae.keyRecipeFile ++ ks.flatMap KeyedChunk.key := by
      have hall := hdone.keyRecipeFile
      rw [hflat, List.flatMap_append, ← h.keyRecipeFile] at hall
      rw [← hkept.dae]
      exact hall
    refine ⟨s', _, hrun, hdone, ?_⟩
    rw [hflat, hkept.dae]
    exact sealPlainChunks_keeps hkeeps hgood (h.batchWaits hrest) hready hseal hks hfile

/-- **The rule.**  What every batch keeps holds at the end of an upload. -/
theorem upload_keeps (hkeeps : BatchKeeps p methodType Good) (heap : Nat → UInt8)
    (hinit : Good [] (BaselineSender.init p methodType heap).dae) (hmost : most ≤ 2 ^ 32)
    {chunks : List Chunk}
    (hbatches : BatchesLE p.sendChunkBatchSize most (chunks.map (·.val)))
    (recipeHead : FileRecipeHead) :
    ∃ s groups, baselineSenderRun p methodType heap (uploadItems chunks recipeHead) = .ok s ∧
      UploadDone p methodType most (chunks.map (·.val)) groups s ∧ Good groups.flatten s.dae := by
  obtain ⟨s, hrun, groups, rest, hs, hgood⟩ := Loops.foldlM_ok (f := addChunk p methodType)
    (l := chunks) (s := BaselineSender.init p methodType heap)
    (P := fun (pre : List Chunk) s => ∃ groups rest,
      Uploading p methodType most (pre.map (·.val)) groups rest s ∧ Good groups.flatten s.dae)
    ⟨[], [], uploading_init p methodType most heap, hinit⟩ (by
      rintro pre chunk post s rfl ⟨groups, rest, hs, hgood⟩
      rw [List.map_append, List.map_cons] at hbatches
      obtain ⟨s', groups', rest', hrun, hs', hgood'⟩ :=
        addChunk_keeps hkeeps hmost hs hgood chunk hbatches
      exact ⟨s', hrun, groups', rest', by rwa [List.map_append, List.map_singleton], hgood'⟩)
  obtain ⟨s', groups', hend, hdone, hgood'⟩ :=
    finishUpload_keeps hkeeps (hs.filling.rest_le hbatches) hs hgood recipeHead
  exact ⟨s', groups', baselineSenderRun_items hrun hend, hdone, hgood'⟩

/-! ## Keys that depend on the chunk alone -/

/-- Chunks with the keys of a function. -/
def keyedBy (key : Bytes → Bytes) (hkey : ∀ c, (key c).length = chunkHashSize)
    (chunks : List Bytes) : List KeyedChunk :=
  chunks.map fun c => ⟨key c, c, hkey c⟩

theorem chunks_keyedBy (key : Bytes → Bytes) (hkey : ∀ c, (key c).length = chunkHashSize)
    (chunks : List Bytes) : (keyedBy key hkey chunks).map KeyedChunk.chunk = chunks := by
  rw [keyedBy, List.map_map]
  exact List.map_id chunks

/-- A file of these keys is read in one way. -/
theorem eq_keyedBy {key : Bytes → Bytes} (hkey : ∀ c, (key c).length = chunkHashSize)
    {ks : List KeyedChunk}
    (hfile : ks.flatMap KeyedChunk.key = (ks.map KeyedChunk.chunk).flatMap key) :
    ks = keyedBy key hkey (ks.map KeyedChunk.chunk) := by
  refine keyed_ext (chunks_keyedBy key hkey _).symm ?_
  rw [hfile, keyedBy, List.flatMap_map _ KeyedChunk.key]

/-! ## `DupLESSDAE` -/

variable {key : RSAKeyPair}

theorem length_duplessChunkKey (p : BaselineParams) (key : RSAKeyPair) (chunk : Bytes) :
    (duplessChunkKey p key chunk).length = chunkHashSize :=
  p.crypto.length_generateHash _

/-- A batch draws a number for each chunk. -/
theorem dupless_draws {chunks : List Bytes} {size : Nat} {plain : FrameBuffer}
    {s s' : BatchState} (hplain : Written size chunks plain)
    (hrun : processBatchChunk p .dupless plain s = .ok s') :
    s'.dae.draws = s.dae.draws + chunks.length := by
  obtain ⟨dae, hround, hrun⟩ := Loops.bind_eq_ok.mp hrun
  obtain ⟨s₁, hloop, hrun⟩ := Loops.bind_eq_ok.mp hrun
  cases hrun
  have hkept := forChunks_keeps (P := fun _ (t : BatchState) =>
    t.dae.draws = s.dae.draws + plain.currentItemNum.toNat) hplain rfl (by
      intro pre chunk rest t t' _ ht hseal
      obtain ⟨_, -, hseal⟩ := Loops.bind_eq_ok.mp hseal
      obtain ⟨_, -, hseal⟩ := Loops.bind_eq_ok.mp hseal
      obtain ⟨_, -, hseal⟩ := Loops.bind_eq_ok.mp hseal
      cases hseal
      exact ht) hloop
  rw [← hplain.toNat_currentItemNum]
  exact hkept

/-- The keys of the chunks so far are those of `duplessChunkKey`, as long as the numbers drawn for
the first `total` chunks have inverses. -/
structure DuplessKeyed (p : BaselineParams) (key : RSAKeyPair) (total : Nat)
    (done : List KeyedChunk) (dae : DAE) : Prop where
  draws : dae.draws = done.length
  keyed : done.length ≤ total → ∀ k ∈ done, k.key = duplessChunkKey p key k.chunk

/-- **A batch** of `DupLESSDAE`. -/
theorem dupless_keeps (hkey : p.publicKey = key.toRSAPublicKey)
    (hmanager : p.keyManager = duplessKeyManager key)
    (hbatch : p.sendChunkBatchSize * rsaKeySize < 2 ^ 32) {total : Nat}
    (hgcd : ∀ i < total, Nat.gcd (p.rand i) key.clientKeyN = 1) :
    BatchKeeps p .dupless (DuplessKeyed p key total) := by
  intro done ks plain s s' hgood hplain hlen hready hrun hfile
  refine ⟨?_, fun htotal => ?_⟩
  · rw [dupless_draws hplain hrun, hgood.draws, List.length_append, List.length_map]
  · rw [List.length_append] at htotal
    have hcount : (ks.map KeyedChunk.chunk).length * rsaKeySize < 2 ^ 32 := by
      rw [List.length_map]
      exact (Nat.mul_le_mul_right _ hlen).trans_lt hbatch
    have hkeys := dupless_batch_keys hkey hmanager hplain hready.dataSize hcount (by
      intro i hi
      rw [List.length_map] at hi
      exact hgcd _ (by rw [hgood.draws]; omega)) hrun
    have hsame := List.append_cancel_left (hfile.symm.trans hkeys)
    have hks := eq_keyedBy (length_duplessChunkKey p key) hsame
    intro k hk
    rcases List.mem_append.mp hk with hk | hk
    · exact hgood.keyed (by omega) k hk
    · rw [hks] at hk
      obtain ⟨c, -, rfl⟩ := List.mem_map.mp hk
      rfl

/-- **A run** of the client: its chunks have the keys of `duplessChunkKey`. -/
theorem dupless_run (p : BaselineParams) (key : RSAKeyPair)
    (hkey : p.publicKey = key.toRSAPublicKey) (hmanager : p.keyManager = duplessKeyManager key)
    (hbatch : p.sendChunkBatchSize * rsaKeySize < 2 ^ 32) (heap : Nat → UInt8)
    (chunks : List Chunk) (recipeHead : FileRecipeHead)
    (hfit : BatchesFit p.sendChunkBatchSize (chunks.map (·.val)))
    (hgcd : ∀ i < chunks.length, Nat.gcd (p.rand i) key.clientKeyN = 1) :
    ∃ s groups, baselineSenderRun p .dupless heap (uploadItems chunks recipeHead) = .ok s ∧
      UploadDone p .dupless (2 ^ 32 - 1) (chunks.map (·.val)) groups s ∧
      groups.flatten =
        keyedBy (duplessChunkKey p key) (length_duplessChunkKey p key) (chunks.map (·.val)) := by
  have hbatches : BatchesLE p.sendChunkBatchSize (2 ^ 32 - 1) (chunks.map (·.val)) :=
    fun k => Nat.le_pred_of_lt (hfit k)
  obtain ⟨s, groups, hrun, hdone, hgood⟩ := upload_keeps
    (dupless_keeps hkey hmanager hbatch hgcd) heap ⟨rfl, fun _ => by simp⟩ (by decide) hbatches
    recipeHead
  have hlen : groups.flatten.length ≤ chunks.length := by
    rw [← List.length_map (f := KeyedChunk.chunk), hdone.chunks, List.length_map]
  refine ⟨s, groups, hrun, hdone, ?_⟩
  rw [← hdone.chunks]
  refine eq_keyedBy _ ?_
  rw [List.flatMap_map]
  exact List.flatMap_congr fun k hk => hgood.keyed hlen k hk

/-- **What `DupLESSDAE` uploads depends on the chunks alone.**  Whatever the client blinds with, as
long as the numbers for its chunks have inverses, and whatever its batch sizes are: the upload runs
through, the key recipe file holds the hashes of the signed hashes of the chunks, and the
ciphertext chunks that are sent are the chunks under these keys, in order. -/
theorem dupless_upload (p : BaselineParams) (key : RSAKeyPair)
    (hkey : p.publicKey = key.toRSAPublicKey) (hmanager : p.keyManager = duplessKeyManager key)
    (hbatch : p.sendChunkBatchSize * rsaKeySize < 2 ^ 32) (heap : Nat → UInt8)
    (chunks : List Chunk) (recipeHead : FileRecipeHead)
    (hfit : BatchesFit p.sendChunkBatchSize (chunks.map (·.val)))
    (hgcd : ∀ i < chunks.length, Nat.gcd (p.rand i) key.clientKeyN = 1) :
    ∃ s, baselineSenderRun p .dupless heap (uploadItems chunks recipeHead) = .ok s ∧
      s.dae.keyRecipeFile = chunks.flatMap (fun c => duplessChunkKey p key c.val) ∧
      ∀ stale, s.sentChunks stale =
        chunks.map fun c => p.crypto.encryptWithKey (duplessChunkKey p key c.val) c.val := by
  obtain ⟨s, groups, hrun, hdone, hkeyed⟩ :=
    dupless_run p key hkey hmanager hbatch heap chunks recipeHead hfit hgcd
  obtain ⟨ks, hks, hfile, hsent⟩ := hdone.aligned (by decide)
  obtain rfl : ks = groups.flatten := keyed_ext (hks.trans hdone.chunks.symm)
    (hfile.symm.trans hdone.keyRecipeFile)
  refine ⟨s, hrun, ?_, fun stale => ?_⟩
  · rw [hfile, hkeyed, keyedBy, List.flatMap_map, List.flatMap_map]
  · rw [hsent, hkeyed, ciphertexts, keyedBy, List.map_map, List.map_map]
    rfl

/-- A client whose numbers are one, with the key manager of the small key pair. -/
def smallDupless : BaselineParams :=
  { smallBaseline with
    rand := fun _ => 1
    publicKey := smallKeyPair.toRSAPublicKey
    keyManager := duplessKeyManager smallKeyPair }

/-- Three chunks in two batches. -/
theorem dupless_upload_small :
    ∃ s, baselineSenderRun smallDupless .dupless (fun _ => 0)
        (uploadItems [⟨[7, 8], by decide⟩, ⟨[9], by decide⟩, ⟨[7, 8], by decide⟩] ⟨4, 3⟩) =
          .ok s ∧
      ∃ a b, ∀ stale, s.sentChunks stale = [a, b, a] := by
  obtain ⟨s, hrun, -, hsent⟩ := dupless_upload smallDupless smallKeyPair rfl rfl (by decide)
    (fun _ => 0) [⟨[7, 8], by decide⟩, ⟨[9], by decide⟩, ⟨[7, 8], by decide⟩] ⟨4, 3⟩
    (batchesFit_of_chunkBufferSize (p := smallDupless) (by decide) _)
    (fun _ _ => Nat.gcd_one_left _)
  exact ⟨s, hrun, _, _, hsent⟩

end Debe
