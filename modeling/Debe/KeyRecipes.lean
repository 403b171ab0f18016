import Debe.KeyAlignment

/-!
# The key recipes of a Baseline upload

The recipe buffer takes a key and a hash for each chunk, the keys of a batch first and the
hashes behind them in a second loop, each in its half of the entries.  `Configure` refuses a
recipe batch size that is not a multiple of the chunk batch size, so a batch never goes past
the end of the buffer, and the buffer is full when the count comes to the recipe batch size.

What was sent and what waits, one behind the other, is the list of entries of the chunks so
far: sending moves bytes from the buffer to the messages, and a batch adds its own.  That
needs all bytes of the buffer to be counted by 32 bits.
-/

namespace Debe

open Records FrameBuffer

/-! ## Rows of two halves -/

/-- A front, then a row of a key and something of the same size for each chunk, and what is
behind. -/
structure Rows (front : Bytes) (rows : List (KeyedChunk × Bytes)) (buf : Bytes) : Prop where
  eq : ∃ behind, buf = front ++ (rows.flatMap (fun r => r.1.key ++ r.2) ++ behind)
  halves : ∀ r ∈ rows, r.2.length = chunkHashSize

variable {front buf buf' : Bytes} {rows todo : List (KeyedChunk × Bytes)}

theorem length_rows (h : ∀ r ∈ rows, r.2.length = chunkHashSize) :
    (rows.flatMap fun r => r.1.key ++ r.2).length = rows.length * keyRecipeEntrySize :=
  Blocks.length_flatMap fun r hr => by
    rw [List.length_append, r.1.length_key, h r hr]
    rfl

/-- The key of the next row.  Its other half is what stands there. -/
theorem Rows.key (h : Rows front rows buf)
    (hfit : front.length + (rows.length + 1) * keyRecipeEntrySize ≤ buf.length) (k : KeyedChunk)
    (hwrite : Buffer.write buf (front.length + rows.length * keyRecipeEntrySize) k.key =
      some buf') :
    ∃ gap, Rows front (rows ++ [(k, gap)]) buf' := by
  obtain ⟨behind, rfl⟩ := h.eq
  have hentry : keyRecipeEntrySize = chunkHashSize + chunkHashSize := rfl
  have hlen := length_rows h.halves
  simp only [List.length_append, hlen, Nat.succ_mul] at hfit
  have hold : (behind.take chunkHashSize).length = chunkHashSize :=
    List.length_take_of_le (by omega)
  have hgap : ((behind.drop chunkHashSize).take chunkHashSize).length = chunkHashSize :=
    List.length_take_of_le (by rw [List.length_drop]; omega)
  have hmid := Buffer.write_mid (front ++ rows.flatMap fun r => r.1.key ++ r.2)
    (behind.drop chunkHashSize) (k.length_key.trans hold.symm)
  rw [List.take_append_drop, List.length_append, hlen, List.append_assoc] at hmid
  obtain rfl := Option.some.inj (hmid.symm.trans hwrite)
  refine ⟨(behind.drop chunkHashSize).take chunkHashSize,
    ⟨(behind.drop chunkHashSize).drop chunkHashSize, ?_⟩, ?_⟩
  · have hsplit := List.take_append_drop chunkHashSize (behind.drop chunkHashSize)
    simp only [List.flatMap_append, List.flatMap_singleton, List.append_assoc, hsplit]
  · intro r hr
    obtain hr | hr := List.mem_append.mp hr
    · exact h.halves r hr
    · rw [List.mem_singleton.mp hr]
      exact hgap

/-- The other half of a row. -/
theorem Rows.hash {k : KeyedChunk} {gap hash : Bytes}
    (h : Rows front (rows ++ (k, gap) :: todo) buf) (hhash : hash.length = chunkHashSize)
    (hwrite : Buffer.write buf (front.length + rows.length * keyRecipeEntrySize + chunkHashSize)
      hash = some buf') :
    Rows front (rows ++ (k, hash) :: todo) buf' := by
  obtain ⟨behind, rfl⟩ := h.eq
  have hgap := h.halves (k, gap) (by simp)
  have hlen := length_rows fun r hr => h.halves r (List.mem_append_left _ hr)
  have hmid := Buffer.write_mid (front ++ (rows.flatMap (fun r => r.1.key ++ r.2) ++ k.key))
    (todo.flatMap (fun r => r.1.key ++ r.2) ++ behind) (hhash.trans hgap.symm)
  simp only [List.length_append, hlen, k.length_key, List.append_assoc, ← Nat.add_assoc] at hmid
  simp only [List.flatMap_append, List.flatMap_cons, List.append_assoc] at hwrite
  obtain rfl := Option.some.inj (hmid.symm.trans hwrite)
  refine ⟨⟨behind, by simp only [List.flatMap_append, List.flatMap_cons, List.append_assoc]⟩, ?_⟩
  intro r hr
  obtain hr | hr := List.mem_append.mp hr
  · exact h.halves r (List.mem_append_left _ hr)
  · obtain rfl | hr := List.mem_cons.mp hr
    · exact hhash
    · exact h.halves r (by simp [hr])

/-! ## The two loops over a batch -/

/-- What the first loop did: the keys are behind those of the file, and in the rows behind the
front; nothing else of the recipe buffer changed. -/
structure Keyed (file front : Bytes) (recipe : FrameBuffer) (good : KeyedChunk → Prop)
    (rows : List (KeyedChunk × Bytes)) (s : BatchState) : Prop where
  keyRecipeFile : s.dae.keyRecipeFile = file ++ (rows.map Prod.fst).flatMap KeyedChunk.key
  filled : Rows front rows s.recipe.dataBuffer
  header : s.recipe = { recipe with dataBuffer := s.recipe.dataBuffer }
  length : s.recipe.dataBuffer.length = recipe.dataBuffer.length
  good : ∀ r ∈ rows, good r.1

variable {p : BaselineParams} {methodType : DAEType} {size entries : Nat}
  {chunks batch : List Bytes} {plain cipher recipe recipe' : FrameBuffer} {good : KeyedChunk → Prop}
  {keyOf : Nat → Bytes → Except Fault Bytes} {encrypt : Bytes → Bytes → Bytes}

/-- What the body of the loop did. -/
theorem sealChunk_inv {s s' : BatchState} {i : Nat} {chunkData : Bytes}
    (hrun : sealChunk keyOf encrypt s i chunkData = .ok s') :
    ∃ key recipes, keyOf i chunkData = .ok key ∧
      Buffer.write s.recipe.dataBuffer (s.recipe.dataSize.toNat + i * keyRecipeEntrySize) key =
        some recipes ∧
      s'.dae.keyRecipeFile = s.dae.keyRecipeFile ++ key ∧
      s'.recipe = { s.recipe with dataBuffer := recipes } := by
  obtain ⟨key, hkey, hrun⟩ := Loops.bind_eq_ok.mp hrun
  obtain ⟨recipes, hwrite, hrun⟩ := Loops.bind_eq_ok.mp hrun
  obtain ⟨cipher, -, hrun⟩ := Loops.bind_eq_ok.mp hrun
  cases hrun
  exact ⟨key, recipes, hkey, inRange_eq_ok.mp hwrite, rfl, rfl⟩

theorem length_of_write {a d b : Bytes} {offset : Nat} (h : Buffer.write a offset d = some b) :
    b.length = a.length := by
  by_cases hfit : offset + d.length ≤ a.length
  · rw [Buffer.write, if_pos hfit] at h
    rw [← Option.some.inj h, Buffer.length_overwrite hfit]
  · rw [Buffer.write, if_neg hfit] at h
    cases h

/-- **The keys of a batch.** -/
theorem sealLoop_keyed {s s' : BatchState} (hplain : Written size chunks plain)
    (hlen : ∀ i chunk key, keyOf i chunk = .ok key → key.length = chunkHashSize)
    (hgood : ∀ i chunk key h, keyOf i chunk = .ok key → good ⟨key, chunk, h⟩)
    (hfront : front.length = s.recipe.dataSize.toNat) (hbegins : front <+: s.recipe.dataBuffer)
    (hroom : s.recipe.dataSize.toNat + chunks.length * keyRecipeEntrySize ≤
      s.recipe.dataBuffer.length)
    (hrun : forChunks (sealChunk keyOf encrypt) plain s = .ok s') :
    ∃ rows, (rows.map Prod.fst).map KeyedChunk.chunk = chunks ∧
      Keyed s.dae.keyRecipeFile front s.recipe good rows s' := by
  obtain ⟨behind, hbehind⟩ := hbegins
  have hstart : Keyed s.dae.keyRecipeFile front s.recipe good [] s :=
    ⟨(List.append_nil _).symm, ⟨⟨behind, hbehind.symm⟩, nofun⟩, rfl, rfl, nofun⟩
  refine forChunks_keeps (P := fun pre s' =>
    ∃ rows, (rows.map Prod.fst).map KeyedChunk.chunk = pre ∧
      Keyed s.dae.keyRecipeFile front s.recipe good rows s') hplain ⟨[], rfl, hstart⟩ ?_ hrun
  rintro pre chunk rest s₁ s₂ rfl ⟨rows, rfl, hs₁⟩ hbody
  obtain ⟨key, recipes, hkey, hwrite, hfile, hrecipe⟩ := sealChunk_inv hbody
  let k : KeyedChunk := ⟨key, chunk, hlen _ _ _ hkey⟩
  have hdataSize : s₁.recipe.dataSize = s.recipe.dataSize := by rw [hs₁.header]
  have hcount : (rows.length + 1) * keyRecipeEntrySize ≤
      (((rows.map Prod.fst).map KeyedChunk.chunk) ++ chunk :: rest).length *
        keyRecipeEntrySize := by
    refine Nat.mul_le_mul_right _ ?_
    simp only [List.length_append, List.length_map, List.length_cons]
    omega
  rw [hdataSize, ← hfront, List.length_map, List.length_map] at hwrite
  obtain ⟨gap, hrows⟩ := hs₁.filled.key (by rw [hs₁.length]; omega) k hwrite
  have hbuffer : s₂.recipe.dataBuffer = recipes := congrArg dataBuffer hrecipe
  refine ⟨rows ++ [(k, gap)], by simp [k], ?_, hbuffer ▸ hrows, ?_, ?_, ?_⟩
  · rw [hfile, hs₁.keyRecipeFile, List.map_append, List.flatMap_append, List.append_assoc]
    simp [k]
  · rw [hrecipe, hs₁.header]
  · rw [hbuffer, length_of_write hwrite, hs₁.length]
  · intro r hr
    obtain hr | hr := List.mem_append.mp hr
    · exact hs₁.good r hr
    · rw [List.mem_singleton.mp hr]
      exact hgood _ _ _ _ hkey

/-- **The hashes of a batch.** -/
theorem generateRecipe_rows
    (hcipher : Written size (ciphertexts p methodType (rows.map Prod.fst)) cipher)
    (hrows : Rows front rows recipe.dataBuffer) (hfront : front.length = recipe.dataSize.toNat)
    (hrun : generateRecipe p cipher recipe = .ok recipe') :
    Rows front (rows.map fun r => (r.1, p.crypto.generateHash
        (r.1.encrypted (ciphertext p methodType)))) recipe'.dataBuffer ∧
      recipe'.dataSize =
        recipe.dataSize + cipher.currentItemNum * UInt32.ofNat keyRecipeEntrySize := by
  obtain ⟨recipes, hloop, hrun⟩ := Loops.bind_eq_ok.mp hrun
  cases hrun
  refine ⟨?_, rfl⟩
  let hashed : KeyedChunk × Bytes → KeyedChunk × Bytes := fun r =>
    (r.1, p.crypto.generateHash (r.1.encrypted (ciphertext p methodType)))
  obtain ⟨done, todo, hsplit, hdone, hend⟩ := forChunks_keeps
    (P := fun pre (buf : Bytes) => ∃ done todo, rows = done ++ todo ∧
      pre = ciphertexts p methodType (done.map Prod.fst) ∧
      Rows front (done.map hashed ++ todo) buf) hcipher ⟨[], rows, rfl, rfl, hrows⟩ (by
    rintro pre chunk rest buf buf' hcut ⟨done, todo, hsplit, rfl, hbuf⟩ hbody
    have hwrite := inRange_eq_ok.mp hbody
    rw [hsplit, List.map_append, ciphertexts, List.map_append] at hcut
    obtain ⟨⟨k, gap⟩, todo, rfl⟩ : ∃ r todo', todo = r :: todo' := by
      cases todo with
      | nil => simp [ciphertexts] at hcut
      | cons r todo => exact ⟨r, todo, rfl⟩
    have htail := List.append_cancel_left hcut
    obtain ⟨rfl, -⟩ := List.cons.inj htail
    rw [← hfront, ciphertexts, List.length_map, List.length_map,
      ← List.length_map hashed] at hwrite
    refine ⟨done ++ [(k, gap)], todo, by rw [hsplit, List.append_assoc]; rfl, ?_, ?_⟩
    · simp [ciphertexts]
    · have hhash := hbuf.hash (p.crypto.length_generateHash _) hwrite
      rw [List.map_append, List.append_assoc]
      exact hhash) hloop
  have hnil : todo = [] := by
    have hlen := congrArg List.length hdone
    rw [hsplit] at hlen
    simp [ciphertexts] at hlen
    exact hlen
  rw [hnil, List.append_nil] at hsplit hend
  rw [hsplit]
  exact hend

/-! ## A batch -/

/-- The entry of a chunk: its key and the hash of its ciphertext. -/
def recipeEntry (p : BaselineParams) (methodType : DAEType) (k : KeyedChunk) : Bytes :=
  k.key ++ p.crypto.generateHash (k.encrypted (ciphertext p methodType))

theorem length_recipeEntries (p : BaselineParams) (methodType : DAEType) (ks : List KeyedChunk) :
    (ks.flatMap (recipeEntry p methodType)).length = ks.length * keyRecipeEntrySize :=
  Blocks.length_flatMap fun k _ => by
    rw [recipeEntry, List.length_append, k.length_key, p.crypto.length_generateHash]
    rfl

/-- Under `MLEDAE` the key of a chunk is its hash. -/
def MLEKey (p : BaselineParams) (methodType : DAEType) (k : KeyedChunk) : Prop :=
  methodType = .ce → k.key = p.crypto.generateHash k.chunk

/-- The keys that a scheme derives. -/
structure Derives (p : BaselineParams) (methodType : DAEType)
    (keyOf : Nat → Bytes → Except Fault Bytes) : Prop where
  length : ∀ i chunk key, keyOf i chunk = .ok key → key.length = chunkHashSize
  mle : ∀ i chunk key h, keyOf i chunk = .ok key → MLEKey p methodType ⟨key, chunk, h⟩

/-- A key that is a hash. -/
theorem derives_hash (hne : methodType ≠ .ce)
    (hhash : ∀ i chunk key, keyOf i chunk = .ok key → ∃ d, key = p.crypto.generateHash d) :
    Derives p methodType keyOf where
  length := by
    intro i chunk key hkey
    obtain ⟨d, rfl⟩ := hhash i chunk key hkey
    exact p.crypto.length_generateHash d
  mle := fun _ _ _ _ _ hce => absurd hce hne

/-- The request and the reply leave the key recipe file as it is. -/
theorem keyGenRound_inv {block : Nat → Bytes → Except Fault Bytes} {slots : Nat} {dae dae' : DAE}
    (hrun : keyGenRound p slots block plain dae = .ok dae') :
    dae'.keyRecipeFile = dae.keyRecipeFile := by
  obtain ⟨b, -, hrun⟩ := Loops.bind_eq_ok.mp hrun
  dsimp only at hrun
  split at hrun
  · cases hrun
  · obtain ⟨dataBuffer, -, hrun⟩ := Loops.bind_eq_ok.mp hrun
    cases hrun
    rfl

/-- **Every scheme** ends in the same second loop. -/
theorem processBatchChunk_inv {s s' : BatchState}
    (hrun : processBatchChunk p methodType plain s = .ok s') :
    ∃ keyOf dae s₁, Derives p methodType keyOf ∧ dae.keyRecipeFile = s.dae.keyRecipeFile ∧
      forChunks (sealChunk keyOf (ciphertext p methodType)) plain { s with dae := dae } = .ok s₁ ∧
      s'.recipe = s₁.recipe ∧ s'.dae.keyRecipeFile = s₁.dae.keyRecipeFile := by
  cases methodType with
  | plain =>
      refine ⟨plainKey, s.dae, s', ⟨?_, fun _ _ _ _ _ hce => by cases hce⟩, rfl, hrun, rfl, rfl⟩
      rintro i chunk _ ⟨⟩
      exact List.length_replicate
  | ce =>
      rw [ciphertext_of_ne (by decide)]
      refine ⟨mleKey p, s.dae, s', ⟨?_, ?_⟩, rfl, hrun, rfl, rfl⟩
      · rintro i chunk _ ⟨⟩
        exact p.crypto.length_generateHash chunk
      · rintro i chunk _ h ⟨⟩ _
        rfl
  | ted =>
      obtain ⟨dae, hround, hrun⟩ := Loops.bind_eq_ok.mp hrun
      obtain ⟨s₁, hloop, hrun⟩ := Loops.bind_eq_ok.mp hrun
      cases hrun
      rw [ciphertext_of_ne (by decide)]
      refine ⟨tedKey p dae, dae, s₁, derives_hash (by decide) ?_, keyGenRound_inv hround, hloop,
        rfl, rfl⟩
      intro i chunk key hkey
      obtain ⟨seed, -, hkey⟩ := Loops.bind_eq_ok.mp hkey
      cases hkey
      exact ⟨_, rfl⟩
  | dupless =>
      obtain ⟨dae, hround, hrun⟩ := Loops.bind_eq_ok.mp hrun
      obtain ⟨s₁, hloop, hrun⟩ := Loops.bind_eq_ok.mp hrun
      cases hrun
      rw [ciphertext_of_ne (by decide)]
      have hfile := keyGenRound_inv hround
      let drawn : DAE := { dae with draws := s.dae.draws + plain.currentItemNum.toNat }
      refine ⟨duplessKey p s.dae.draws drawn, drawn, s₁, derives_hash (by decide) ?_, hfile, hloop,
        rfl, rfl⟩
      intro i chunk key hkey
      obtain ⟨slot, -, hkey⟩ := Loops.bind_eq_ok.mp hkey
      obtain ⟨tmpRSAKey, -, hkey⟩ := Loops.bind_eq_ok.mp hkey
      cases hkey
      exact ⟨_, rfl⟩

/-- The keys of the file, with the chunks, are those of the entries. -/
theorem keyed_ext {ks ks' : List KeyedChunk}
    (hchunks : ks.map KeyedChunk.chunk = ks'.map KeyedChunk.chunk)
    (hkeys : ks.flatMap KeyedChunk.key = ks'.flatMap KeyedChunk.key) : ks = ks' := by
  induction ks generalizing ks' with
  | nil => exact (List.map_eq_nil_iff.mp hchunks.symm).symm
  | cons k ks ih =>
      obtain ⟨k', ks', rfl⟩ : ∃ k' tail, ks' = k' :: tail := by
        cases ks' with
        | nil => cases hchunks
        | cons k' ks' => exact ⟨k', ks', rfl⟩
      obtain ⟨hchunk, hchunks⟩ := List.cons.inj hchunks
      rw [List.flatMap_cons, List.flatMap_cons] at hkeys
      obtain ⟨hkey, hkeys⟩ := List.append_inj hkeys (k.length_key.trans k'.length_key.symm)
      rw [ih hchunks hkeys]
      cases k
      cases k'
      exact congrArg (· :: ks') (by simp_all)

theorem payload_length {b : FrameBuffer} (h : b.dataSize.toNat ≤ b.dataBuffer.length) :
    b.payload.length = b.dataSize.toNat :=
  List.length_take_of_le h

/-- The entries of a batch come behind those that wait, if their bytes can be counted. -/
theorem Rows.payload {ks : List KeyedChunk} (h : Rows recipe.payload
      (ks.map fun k => (k, p.crypto.generateHash (k.encrypted (ciphertext p methodType))))
      recipe'.dataBuffer)
    (hlen : recipe.payload.length = recipe.dataSize.toNat) {n : UInt32} (hn : n.toNat = ks.length)
    (hsize : recipe'.dataSize = recipe.dataSize + n * UInt32.ofNat keyRecipeEntrySize)
    (hfits : recipe.dataSize.toNat + ks.length * keyRecipeEntrySize < 2 ^ 32) :
    recipe'.payload = recipe.payload ++ ks.flatMap (recipeEntry p methodType) := by
  have hrows := length_rows h.halves
  obtain ⟨behind, hbuf⟩ := h.eq
  have hentry : (UInt32.ofNat keyRecipeEntrySize).toNat = keyRecipeEntrySize := rfl
  have hmul : (n * UInt32.ofNat keyRecipeEntrySize).toNat = ks.length * keyRecipeEntrySize := by
    rw [UInt32.toNat_mul, hn, hentry, Nat.mod_eq_of_lt (by omega)]
  have hadd : recipe'.dataSize.toNat =
      recipe.dataSize.toNat + ks.length * keyRecipeEntrySize := by
    rw [hsize, UInt32.toNat_add, hmul, Nat.mod_eq_of_lt hfits]
  rw [List.length_map] at hrows
  rw [FrameBuffer.payload, hbuf, hadd, ← hlen, List.take_length_add_append, ← hrows, List.take_left,
    List.flatMap_map]
  rfl

/-- What a batch adds to the recipes. -/
structure EntriesAdded (p : BaselineParams) (methodType : DAEType) (ks : List KeyedChunk)
    (s s' : BaselineSender) : Prop where
  keyRecipeFile : s'.dae.keyRecipeFile = s.dae.keyRecipeFile ++ ks.flatMap KeyedChunk.key
  payload : s'.recipe.payload = s.recipe.payload ++ ks.flatMap (recipeEntry p methodType)
  sent : s'.sent = s.sent
  mle : ∀ k ∈ ks, MLEKey p methodType k

/-- **A batch** adds the entries of its chunks. -/
theorem sealPlainChunks_entries {s s' : BaselineSender} (hbatch : BatchWaits p batch s)
    (hs : SenderReady p methodType entries s)
    (hfits : s.recipe.dataSize.toNat + batch.length * keyRecipeEntrySize < 2 ^ 32)
    (hrun : sealPlainChunks p methodType s = .ok s') :
    ∃ ks, ks.map KeyedChunk.chunk = batch ∧ EntriesAdded p methodType ks s s' := by
  have hroom := hbatch.fits hs
  obtain ⟨t, ks, hprocess, hks, hsealed, -⟩ :=
    processBatchChunk_ok (p := p) methodType hroom hs.dae (Nat.mul_le_mul_right _ hbatch.le)
  rw [sealPlainChunks, if_pos hbatch.currentItemNum_ne] at hrun
  obtain ⟨t', hprocess', hrun⟩ := Loops.bind_eq_ok.mp hrun
  obtain rfl : t = t' := Except.ok.inj (hprocess.symm.trans hprocess')
  obtain ⟨recipe, hgenerate, hrun⟩ := Loops.bind_eq_ok.mp hrun
  cases hrun
  obtain ⟨keyOf, dae, t₁, hderives, hfile, hloop, hrecipe, hfile'⟩ :=
    processBatchChunk_inv hprocess
  have hle : s.recipe.dataSize.toNat ≤ s.recipe.dataBuffer.length :=
    (Nat.le_add_right _ _).trans hroom.recipe
  have hlen := payload_length hle
  obtain ⟨rows, hchunks, hkeyed⟩ := sealLoop_keyed (s := ⟨dae, s.cipher, s.recipe⟩) hroom.plain
    hderives.length hderives.mle hlen (List.take_prefix _ _) hroom.recipe hloop
  have hfileₖ : t.dae.keyRecipeFile =
      s.dae.keyRecipeFile ++ (rows.map Prod.fst).flatMap KeyedChunk.key := by
    rw [hfile', hkeyed.keyRecipeFile]
    exact congrArg (· ++ _) hfile
  obtain rfl : rows.map Prod.fst = ks := keyed_ext (hchunks.trans hks.symm)
    (List.append_cancel_left (hfileₖ.symm.trans hsealed.keyRecipeFile))
  have hsize : t.recipe.dataSize = s.recipe.dataSize :=
    (congrArg dataSize hrecipe).trans (by rw [hkeyed.header])
  have hfilled : Rows s.recipe.payload rows t.recipe.dataBuffer := hrecipe ▸ hkeyed.filled
  have hcipher : Written (chunkBufferSize p) (ciphertexts p methodType (rows.map Prod.fst))
      t.cipher := hsealed.cipher
  obtain ⟨hrows, hdata⟩ := generateRecipe_rows hcipher hfilled
    (hlen.trans (congrArg UInt32.toNat hsize.symm)) hgenerate
  have hcount : t.cipher.currentItemNum.toNat = (rows.map Prod.fst).length := by
    rw [hsealed.cipher.toNat_currentItemNum, List.length_map]
  have hbatchLen : (rows.map Prod.fst).length = batch.length :=
    (List.length_map _).symm.trans (congrArg List.length hchunks)
  refine ⟨rows.map Prod.fst, hks, hsealed.keyRecipeFile, ?_, rfl, ?_⟩
  · have hentries : Rows s.recipe.payload ((rows.map Prod.fst).map fun k =>
        (k, p.crypto.generateHash (k.encrypted (ciphertext p methodType)))) recipe.dataBuffer := by
      rwa [List.map_map]
    exact hentries.payload hlen hcount (hsize ▸ hdata) (hbatchLen ▸ hfits)
  · intro k hk
    obtain ⟨r, hr, rfl⟩ := List.mem_map.mp hk
    exact hkeyed.good r hr

/-! ## What was sent and what waits -/

/-- The recipe messages among those that were sent. -/
def BaselineSender.recipeMsgs (s : BaselineSender) : List BaselineMsg :=
  s.sent.filter fun m => m.messageType = .clientUploadRecipe

/-- What the recipe messages brought, and behind it what waits in the recipe buffer. -/
def BaselineSender.recipeBytes (s : BaselineSender) : Bytes :=
  s.recipeMsgs.flatMap BaselineMsg.data ++ s.recipe.payload

theorem payload_of_dataSize {b : FrameBuffer} (h : b.dataSize = 0) : b.payload = [] := by
  rw [FrameBuffer.payload, h]
  rfl

/-- Sending moves the bytes from the buffer to the messages. -/
theorem recipeBytes_sendBaselineRecipes (s : BaselineSender) :
    (sendBaselineRecipes s).recipeBytes = s.recipeBytes := by
  have hreset : s.recipe.reset.payload = [] := payload_of_dataSize rfl
  simp [BaselineSender.recipeBytes, BaselineSender.recipeMsgs, sendBaselineRecipes, baselineMsg,
    hreset]

@[simp] theorem recipeBytes_sendBaselineChunks (s : BaselineSender) :
    (sendBaselineChunks s).recipeBytes = s.recipeBytes := by
  simp [BaselineSender.recipeBytes, BaselineSender.recipeMsgs, sendBaselineChunks, baselineMsg]

/-- After a batch was encrypted, the recipes are sent or stay. -/
structure RecipesKept (t s' : BaselineSender) : Prop where
  bytes : s'.recipeBytes = t.recipeBytes
  dae : s'.dae = t.dae
  recipe : s'.recipe = t.recipe ∨ s'.recipe = t.recipe.reset

theorem recipesKept_sendRecipes (t : BaselineSender) (c : Prop) [Decidable c] :
    RecipesKept t (if c then sendBaselineRecipes t else t) := by
  by_cases hc : c
  · rw [if_pos hc]
    exact ⟨recipeBytes_sendBaselineRecipes t, rfl, .inr rfl⟩
  · rw [if_neg hc]
    exact ⟨rfl, rfl, .inl rfl⟩

theorem RecipesKept.sendChunks {t s' : BaselineSender} (h : RecipesKept t s') (c : Prop)
    [Decidable c] : RecipesKept t (if c then sendBaselineChunks s' else s') := by
  by_cases hc : c
  · rw [if_pos hc]
    exact ⟨(recipeBytes_sendBaselineChunks s').trans h.bytes, h.dae, h.recipe⟩
  · rw [if_neg hc]
    exact h

/-- `ProcessChunkBatch` behind the encryption. -/
theorem sendChunkBatch_inv {s s' : BaselineSender}
    (hrun : sendChunkBatch p methodType s = .ok s') :
    ∃ t, sealPlainChunks p methodType s = .ok t ∧ RecipesKept t s' := by
  obtain ⟨t, hseal, hrun⟩ := Loops.bind_eq_ok.mp hrun
  cases hrun
  exact ⟨t, hseal, (recipesKept_sendRecipes t _).sendChunks _⟩

/-- `ProcessRecipeEnd` behind the encryption. -/
theorem finishUpload_inv {s s' : BaselineSender} {recipeHead : FileRecipeHead}
    (hrun : finishUpload p methodType s recipeHead = .ok s') :
    ∃ t, sealPlainChunks p methodType s = .ok t ∧ RecipesKept t s' ∧
      s'.recipe.currentItemNum = 0 := by
  obtain ⟨t, hseal, hrun⟩ := Loops.bind_eq_ok.mp hrun
  obtain ⟨dataBuffer, -, hrun⟩ := Loops.bind_eq_ok.mp hrun
  cases hrun
  have hkept := (recipesKept_sendRecipes t (t.recipe.currentItemNum ≠ 0)).sendChunks
    ((if t.recipe.currentItemNum ≠ 0 then sendBaselineRecipes t else t).cipher.currentItemNum ≠ 0)
  refine ⟨t, hseal, ⟨?_, hkept.dae, hkept.recipe⟩, ?_⟩
  · rw [← hkept.bytes]
    simp [BaselineSender.recipeBytes, BaselineSender.recipeMsgs, baselineMsg]
  · dsimp only
    by_cases hc : t.recipe.currentItemNum ≠ 0
    · rw [if_pos hc]
      split <;> rfl
    · rw [if_neg hc]
      split <;> exact not_not.mp hc

/-! ## The run -/

/-- The entries of some chunks were sent or wait, and their keys are in the file. -/
structure RecipesRecorded (p : BaselineParams) (methodType : DAEType) (ks : List KeyedChunk)
    (s : BaselineSender) : Prop where
  keyRecipeFile : s.dae.keyRecipeFile = ks.flatMap KeyedChunk.key
  bytes : s.recipeBytes = ks.flatMap (recipeEntry p methodType)
  mle : ∀ k ∈ ks, MLEKey p methodType k

variable {ks ks' : List KeyedChunk} {s s' t : BaselineSender} {most : Nat}
  {groups : List (List KeyedChunk)} {rest seen : List Bytes}

theorem RecipesRecorded.add (h : RecipesRecorded p methodType ks s)
    (hadd : EntriesAdded p methodType ks' s t) (hkept : RecipesKept t s') :
    RecipesRecorded p methodType (ks ++ ks') s' where
  keyRecipeFile := by
    rw [hkept.dae, hadd.keyRecipeFile, h.keyRecipeFile, List.flatMap_append]
  bytes := by
    have hmsgs : t.recipeMsgs = s.recipeMsgs := by
      rw [BaselineSender.recipeMsgs, hadd.sent, BaselineSender.recipeMsgs]
    rw [hkept.bytes, List.flatMap_append, ← h.bytes, BaselineSender.recipeBytes, hadd.payload,
      hmsgs, BaselineSender.recipeBytes, List.append_assoc]
  mle := fun k hk => (List.mem_append.mp hk).elim (h.mle k) (hadd.mle k)

/-- The entries of a batch can be counted with those that wait: the recipe buffer is small
enough, or there are not so many chunks. -/
theorem RecipesRecorded.fits (h : RecipesRecorded p methodType ks s)
    (hs : SenderReady p methodType entries s) {n total : Nat} (hn : n ≤ p.sendChunkBatchSize)
    (htotal : ks.length + n ≤ total)
    (hfit : min total p.sendRecipeBatchSize * keyRecipeEntrySize < 2 ^ 32) :
    s.recipe.dataSize.toNat + n * keyRecipeEntrySize < 2 ^ 32 := by
  have hroom : s.recipe.dataSize.toNat ≤ s.recipe.dataBuffer.length := by
    simpa using hs.recipe.fits (Nat.zero_le _) (Nat.zero_le _)
  refine Nat.lt_of_le_of_lt ?_ hfit
  obtain hle | hle := Nat.le_total total p.sendRecipeBatchSize
  · have hentries := length_recipeEntries p methodType ks
    have hbytes := congrArg List.length h.bytes
    rw [BaselineSender.recipeBytes, List.length_append, payload_length hroom, hentries] at hbytes
    rw [Nat.min_eq_left hle]
    refine Nat.le_trans ?_ (Nat.mul_le_mul_right _ htotal)
    rw [Nat.add_mul]
    omega
  · rw [Nat.min_eq_right hle] at hfit ⊢
    have hsmall : p.sendRecipeBatchSize < 2 ^ 32 := by
      unfold keyRecipeEntrySize at hfit
      omega
    have hsize : s.recipe.dataSize.toNat ≤ entries * keyRecipeEntrySize := by
      rw [hs.recipe.dataSize, UInt32.toNat_ofNat']
      exact Nat.mod_le _ _
    have hnext := hs.recipe.next_le hsmall
    refine Nat.le_trans ?_ (Nat.mul_le_mul_right _ ((Nat.add_le_add_left hn _).trans hnext))
    rw [Nat.add_mul]
    omega

/-- Between two chunks. -/
structure Recording (p : BaselineParams) (methodType : DAEType) (seen : List Bytes)
    (groups : List (List KeyedChunk)) (rest : List Bytes) (s : BaselineSender) : Prop
    extends Uploading p methodType (2 ^ 32) seen groups rest s where
  recorded : RecipesRecorded p methodType groups.flatten s

theorem recording_init (p : BaselineParams) (methodType : DAEType) (heap : Nat → UInt8) :
    Recording p methodType [] [] [] (.init p methodType heap) :=
  ⟨uploading_init p methodType (2 ^ 32) heap, rfl, payload_of_dataSize rfl, nofun⟩

theorem Recording.length_groups (h : Recording p methodType seen groups rest s) :
    groups.flatten.length + rest.length = seen.length := by
  rw [← h.filling.eq, List.length_append, ← List.map_flatten, List.length_map]

/-- **A chunk.** -/
theorem addChunk_recording (h : Recording p methodType seen groups rest s) (chunk : Chunk)
    {post : List Bytes} {total : Nat}
    (hbatches : BatchesLE p.sendChunkBatchSize (2 ^ 32) (seen ++ chunk.val :: post))
    (htotal : seen.length + 1 ≤ total)
    (hfit : min total p.sendRecipeBatchSize * keyRecipeEntrySize < 2 ^ 32) :
    ∃ s' groups' rest', addChunk p methodType s chunk = .ok s' ∧
      Recording p methodType (seen ++ [chunk.val]) groups' rest' s' := by
  have hle := h.filling.frames_le hbatches
  obtain ⟨plain, happend, hplain⟩ := h.append le_rfl chunk hle
  by_cases hmod : plain.currentItemNum.toNat % p.sendChunkBatchSize = 0
  · obtain ⟨s₂, ks, hsend, hks, hadd, hs₂⟩ := addChunk_full h.toUploading hle happend hplain hmod
    obtain ⟨t, hseal, hkept⟩ := sendChunkBatch_inv hsend
    obtain ⟨entries, hready⟩ := h.ready
    have hready₁ := hready.withPlain plain
    have hcount := h.length_groups
    have hlen : groups.flatten.length + (rest ++ [chunk.val]).length ≤ total := by
      rw [List.length_append, List.length_singleton]
      omega
    obtain ⟨ks', hks', hentries⟩ := sealPlainChunks_entries (hplain.waits s) hready₁
      (h.recorded.fits hready hplain.le hlen hfit) hseal
    have hadded : EntriesAdded p methodType ks' s t :=
      ⟨hentries.keyRecipeFile, hentries.payload, hentries.sent, hentries.mle⟩
    have hrecorded := h.recorded.add hadded hkept
    have hkeys := hs₂.keyRecipeFile.symm.trans hrecorded.keyRecipeFile
    rw [List.flatten_append, List.flatten_singleton, List.flatMap_append, List.flatMap_append]
      at hkeys
    obtain rfl := keyed_ext (hks.trans hks'.symm) (List.append_cancel_left hkeys)
    refine ⟨_, _, _, hadd, hs₂, ?_⟩
    rw [List.flatten_append, List.flatten_singleton]
    exact ⟨hrecorded.keyRecipeFile, hrecorded.bytes, hrecorded.mle⟩
  · obtain ⟨hadd, hs⟩ := addChunk_waits h.toUploading happend hplain hmod
    exact ⟨_, _, _, hadd, hs, h.recorded.keyRecipeFile, h.recorded.bytes, h.recorded.mle⟩

/-- The chunks that wait, if there are any, add their entries. -/
theorem Recording.seal (h : Recording p methodType seen groups rest s) {total : Nat}
    (htotal : seen.length ≤ total)
    (hfit : min total p.sendRecipeBatchSize * keyRecipeEntrySize < 2 ^ 32)
    (hseal : sealPlainChunks p methodType s = .ok t) :
    ∃ ks, ks.map KeyedChunk.chunk = rest ∧ EntriesAdded p methodType ks s t := by
  by_cases hrest : rest = []
  · subst hrest
    obtain rfl : s = t := Except.ok.inj (h.toUploading.seal_empty.symm.trans hseal)
    exact ⟨[], rfl, (List.append_nil _).symm, (List.append_nil _).symm, rfl,
      fun _ hk => absurd hk List.not_mem_nil⟩
  · obtain ⟨entries, hready⟩ := h.ready
    have hlen : groups.flatten.length + rest.length ≤ total := by
      rw [h.length_groups]
      exact htotal
    exact sealPlainChunks_entries (h.batchWaits hrest) hready
      (h.recorded.fits hready h.filling.lt.le hlen hfit) hseal

/-- The counter of the entries stays within the buffer through a batch. -/
theorem RecipeRoom.count_le {n : Nat} (h : RecipeRoom p entries recipe)
    (hn : n ≤ p.sendChunkBatchSize) (h' : RecipeCounts p (entries + n) recipe') :
    recipe'.currentItemNum.toNat ≤ p.sendRecipeBatchSize := by
  obtain hsmall | hlarge := Nat.lt_or_ge p.sendRecipeBatchSize (2 ^ 32)
  · rw [h'.currentItemNum, UInt32.toNat_ofNat']
    have hnext := h.next_le hsmall
    have hmod := Nat.mod_le (entries + n) (2 ^ 32)
    omega
  · exact (recipe'.currentItemNum.toNat_lt.le).trans hlarge

/-- No entries, no bytes. -/
theorem RecipeCounts.dataSize_of_zero (h : RecipeCounts p entries recipe)
    (hzero : recipe.currentItemNum = 0) : recipe.dataSize = 0 := by
  have hnum := h.currentItemNum
  rw [hzero] at hnum
  rw [h.dataSize, UInt32.ofNat_mul, ← hnum, UInt32.zero_mul]

/-- A full batch, or the chunks that wait at the end, in the recipe buffer. -/
theorem sealPlainChunks_counts (hbatch : BatchWaits p batch s)
    (hs : SenderReady p methodType entries s) (hseal : sealPlainChunks p methodType s = .ok t) :
    t.recipe.currentItemNum.toNat ≤ p.sendRecipeBatchSize ∧
      (t.recipe.currentItemNum = 0 → t.recipe.dataSize = 0) := by
  obtain ⟨t', ks, hrun, hks, hsealed⟩ := sealPlainChunks_ok hbatch hs
  obtain rfl : t' = t := Except.ok.inj (hrun.symm.trans hseal)
  have hlen : ks.length ≤ p.sendChunkBatchSize := by
    have hle := hbatch.le
    rwa [← hks, List.length_map] at hle
  exact ⟨hs.recipe.count_le hlen hsealed.recipe, hsealed.recipe.dataSize_of_zero⟩

theorem SenderReady.counts (hs : SenderReady p methodType entries s) :
    s.recipe.currentItemNum.toNat ≤ p.sendRecipeBatchSize ∧
      (s.recipe.currentItemNum = 0 → s.recipe.dataSize = 0) :=
  ⟨hs.recipe.count_le (Nat.zero_le _) hs.recipe.toRecipeCounts,
    hs.recipe.toRecipeCounts.dataSize_of_zero⟩

theorem Uploading.counts (h : Uploading p methodType most seen groups rest s)
    (hseal : sealPlainChunks p methodType s = .ok t) :
    t.recipe.currentItemNum.toNat ≤ p.sendRecipeBatchSize ∧
      (t.recipe.currentItemNum = 0 → t.recipe.dataSize = 0) := by
  obtain ⟨entries, hready⟩ := h.ready
  by_cases hrest : rest = []
  · subst hrest
    obtain rfl : s = t := Except.ok.inj (h.seal_empty.symm.trans hseal)
    exact hready.counts
  · exact sealPlainChunks_counts (h.batchWaits hrest) hready hseal

/-- The recipes of an upload: the entry of every chunk, in order and once, with the key that is
in the file and the hash of the ciphertext that was sent. -/
def RecipesComplete (p : BaselineParams) (methodType : DAEType) (chunks : List Bytes)
    (s : BaselineSender) : Prop :=
  ∃ ks : List KeyedChunk, ks.map KeyedChunk.chunk = chunks ∧
    s.dae.keyRecipeFile = ks.flatMap KeyedChunk.key ∧ (∀ k ∈ ks, MLEKey p methodType k) ∧
    (BatchesFit p.sendChunkBatchSize chunks →
      ∀ stale, s.sentChunks stale = ciphertexts p methodType ks) ∧
    s.recipeMsgs.flatMap BaselineMsg.data = ks.flatMap (recipeEntry p methodType)

/-- The end sends what waits. -/
theorem Recording.finish (h : Recording p methodType seen groups rest s)
    (hbatches : BatchesLE p.sendChunkBatchSize (2 ^ 32) seen) {total : Nat}
    (htotal : seen.length ≤ total)
    (hfit : min total p.sendRecipeBatchSize * keyRecipeEntrySize < 2 ^ 32)
    (recipeHead : FileRecipeHead) :
    ∃ s' groups', finishUpload p methodType s recipeHead = .ok s' ∧
      UploadDone p methodType (2 ^ 32) seen groups' s' ∧
      (∀ k ∈ groups'.flatten, MLEKey p methodType k) ∧
      s'.recipeMsgs.flatMap BaselineMsg.data =
        groups'.flatten.flatMap (recipeEntry p methodType) := by
  obtain ⟨s', groups', hrun, hdone⟩ :=
    finishUpload_ok (h.filling.rest_le hbatches) h.toUploading recipeHead
  obtain ⟨t, hseal, hkept, hzero⟩ := finishUpload_inv hrun
  obtain ⟨ks, hks, hentries⟩ := h.seal htotal hfit hseal
  have hrecorded := h.recorded.add hentries hkept
  have hchunks : groups'.flatten.map KeyedChunk.chunk =
      (groups.flatten ++ ks).map KeyedChunk.chunk := by
    rw [hdone.chunks, List.map_append, hks, List.map_flatten, h.filling.eq]
  have hsame := keyed_ext hchunks (hdone.keyRecipeFile.symm.trans hrecorded.keyRecipeFile)
  have hwaiting : s'.recipe.payload = [] := by
    obtain hstays | hreset := hkept.recipe
    · rw [hstays] at hzero ⊢
      exact payload_of_dataSize ((h.toUploading.counts hseal).2 hzero)
    · rw [hreset]
      exact payload_of_dataSize rfl
  refine ⟨s', groups', hrun, hdone, hsame ▸ hrecorded.mle, ?_⟩
  rw [hsame, ← hrecorded.bytes, BaselineSender.recipeBytes, hwaiting, List.append_nil]

/-- The chunks of an upload, with their recipes. -/
theorem addChunks_recording (methodType : DAEType) (heap : Nat → UInt8) {chunks : List Chunk}
    (hbatches : BatchesLE p.sendChunkBatchSize (2 ^ 32) (chunks.map (·.val)))
    (hfit : min chunks.length p.sendRecipeBatchSize * keyRecipeEntrySize < 2 ^ 32) :
    ∃ s, chunks.foldlM (addChunk p methodType) (.init p methodType heap) = .ok s ∧
      ∃ groups rest, Recording p methodType (chunks.map (·.val)) groups rest s :=
  Loops.foldlM_ok
    (P := fun (pre : List Chunk) s =>
      ∃ groups rest, Recording p methodType (pre.map (·.val)) groups rest s)
    ⟨[], [], recording_init p methodType heap⟩ (by
      rintro pre chunk post s rfl ⟨groups, rest, hs⟩
      rw [List.map_append, List.map_cons] at hbatches
      have htotal : (pre.map (·.val)).length + 1 ≤ (pre ++ chunk :: post).length := by
        rw [List.length_map, List.length_append, List.length_cons]
        omega
      obtain ⟨s', groups', rest', hrun, hs'⟩ :=
        addChunk_recording hs chunk hbatches htotal hfit
      exact ⟨s', hrun, groups', rest', by rwa [List.map_append, List.map_singleton]⟩)

/-- An upload whose recipes can be counted. -/
theorem recipes_complete (methodType : DAEType) (heap : Nat → UInt8) {chunks : List Chunk}
    (hbatches : BatchesLE p.sendChunkBatchSize (2 ^ 32) (chunks.map (·.val)))
    (hfit : min chunks.length p.sendRecipeBatchSize * keyRecipeEntrySize < 2 ^ 32)
    (recipeHead : FileRecipeHead) :
    ∃ s, baselineSenderRun p methodType heap (uploadItems chunks recipeHead) = .ok s ∧
      RecipesComplete p methodType (chunks.map (·.val)) s := by
  obtain ⟨s, hchunks, groups, rest, hs⟩ := addChunks_recording methodType heap hbatches hfit
  obtain ⟨s', groups', hend, hdone, hmle, hrecipes⟩ :=
    hs.finish hbatches (List.length_map _).le hfit recipeHead
  have hrun := baselineSenderRun_items hchunks hend
  refine ⟨s', hrun, groups'.flatten, hdone.chunks, hdone.keyRecipeFile, hmle, fun hfits => ?_,
    hrecipes⟩
  have hless : BatchesLE p.sendChunkBatchSize (2 ^ 32 - 1) (chunks.map (·.val)) :=
    fun k => Nat.le_pred_of_lt (hfits k)
  obtain ⟨s₂, groups₂, hrun₂, hdone₂⟩ :=
    baselineSenderRun_ok methodType (by decide) heap hless recipeHead
  obtain rfl : s' = s₂ := Except.ok.inj (hrun.symm.trans hrun₂)
  obtain ⟨ks, hks, hfile, hsent⟩ := hdone₂.aligned (by decide)
  obtain rfl := keyed_ext (hks.trans hdone.chunks.symm) (hfile.symm.trans hdone.keyRecipeFile)
  exact hsent

/-! ## Every moment -/

/-- The states of an upload between two items, and those between the encryption of a batch and
the sending of its recipes, where the recipe buffer is as full as it gets. -/
inductive RecipeMoment (p : BaselineParams) (methodType : DAEType) (heap : Nat → UInt8)
    (items : List MQData) : BaselineSender → Prop
  | between {pre post : List MQData} {s : BaselineSender} (hitems : items = pre ++ post)
      (hrun : baselineSenderRun p methodType heap pre = .ok s) :
      RecipeMoment p methodType heap items s
  | batch {pre post : List MQData} {chunk : Chunk} {s t : BaselineSender} {plain : FrameBuffer}
      (hitems : items = pre ++ .chunk chunk :: post)
      (hrun : baselineSenderRun p methodType heap pre = .ok s)
      (happend : s.plain.append chunk.val = some plain)
      (hfull : plain.currentItemNum.toNat % p.sendChunkBatchSize = 0)
      (hseal : sealPlainChunks p methodType { s with plain := plain } = .ok t) :
      RecipeMoment p methodType heap items t
  | tail {pre post : List MQData} {recipeHead : FileRecipeHead} {s t : BaselineSender}
      (hitems : items = pre ++ .recipeEnd recipeHead :: post)
      (hrun : baselineSenderRun p methodType heap pre = .ok s)
      (hseal : sealPlainChunks p methodType s = .ok t) :
      RecipeMoment p methodType heap items t

/-- What comes before an item of an upload is chunks. -/
theorem uploadItems_split {chunks : List Chunk} {recipeHead : FileRecipeHead}
    {pre post : List MQData} {item : MQData}
    (h : uploadItems chunks recipeHead = pre ++ item :: post) :
    ∃ before after, chunks = before ++ after ∧ pre = before.map .chunk ∧
      item :: post = after.map .chunk ++ [.recipeEnd recipeHead] := by
  obtain ⟨tail, hpre, hend⟩ | ⟨tail, hchunks, hend⟩ := List.append_eq_append_iff.mp h
  · obtain ⟨rfl, hitem⟩ | ⟨-, hitem⟩ := List.append_eq_singleton_iff.mp hend.symm
    · exact ⟨chunks, [], (List.append_nil _).symm, by rw [hpre, List.append_nil], hitem⟩
    · cases hitem
  · obtain ⟨before, after, rfl, rfl, rfl⟩ := List.map_eq_append_iff.mp hchunks
    exact ⟨before, after, rfl, rfl, hend⟩

theorem BatchesLE.left {n most : Nat} {before after : List Bytes}
    (h : BatchesLE n most (before ++ after)) : BatchesLE n most before := by
  intro k
  refine (length_frames_mono ?_).trans (h k)
  rw [List.drop_append, List.take_append]
  exact List.prefix_append _ _

/-- Before an item the chunks so far were uploaded or wait. -/
theorem uploading_before {heap : Nat → UInt8} {before : List Chunk}
    (hbatches : BatchesLE p.sendChunkBatchSize (2 ^ 32) (before.map (·.val)))
    (hrun : baselineSenderRun p methodType heap (before.map .chunk) = .ok s) :
    ∃ groups rest, Uploading p methodType (2 ^ 32) (before.map (·.val)) groups rest s := by
  obtain ⟨s', hadd, hs'⟩ := addChunks_ok methodType le_rfl heap hbatches
  rw [baselineSenderRun, List.foldlM_map] at hrun
  obtain rfl : s' = s := Except.ok.inj (hadd.symm.trans hrun)
  exact hs'

/-- **The recipe buffer is never overfull.** -/
theorem recipeMoment_bounded {heap : Nat → UInt8} {chunks : List Chunk}
    {recipeHead : FileRecipeHead}
    (hbatches : BatchesLE p.sendChunkBatchSize (2 ^ 32) (chunks.map (·.val)))
    (h : RecipeMoment p methodType heap (uploadItems chunks recipeHead) s) :
    s.recipe.currentItemNum.toNat ≤ p.sendRecipeBatchSize := by
  cases h with
  | @between pre post _ hitems hrun =>
      cases post with
      | nil =>
          rw [List.append_nil] at hitems
          obtain ⟨s₁, hadd, groups, rest, hs₁⟩ := addChunks_ok methodType le_rfl heap hbatches
          obtain ⟨s₂, -, hend, -⟩ :=
            finishUpload_ok (hs₁.filling.rest_le hbatches) hs₁ recipeHead
          rw [← hitems, baselineSenderRun_items hadd hend] at hrun
          obtain rfl := Except.ok.inj hrun
          obtain ⟨-, -, -, hzero⟩ := finishUpload_inv hend
          rw [hzero]
          exact Nat.zero_le _
      | cons item post =>
          obtain ⟨before, after, rfl, rfl, -⟩ := uploadItems_split hitems
          rw [List.map_append] at hbatches
          obtain ⟨groups, rest, hs⟩ := uploading_before hbatches.left hrun
          obtain ⟨entries, hready⟩ := hs.ready
          exact hready.counts.1
  | @batch pre post chunk s₀ _ plain hitems hrun happend hfull hseal =>
      obtain ⟨before, after, rfl, rfl, hitem⟩ := uploadItems_split hitems
      obtain ⟨after, rfl⟩ : ∃ tail, after = chunk :: tail := by
        cases after with
        | nil => cases hitem
        | cons c after =>
            cases hitem
            exact ⟨after, rfl⟩
      rw [List.map_append, List.map_cons] at hbatches
      obtain ⟨groups, rest, hs⟩ := uploading_before hbatches.left hrun
      obtain ⟨plain', happend', hplain⟩ := hs.append le_rfl chunk (hs.filling.frames_le hbatches)
      obtain rfl : plain' = plain := Option.some.inj (happend'.symm.trans happend)
      obtain ⟨entries, hready⟩ := hs.ready
      exact (sealPlainChunks_counts (hplain.waits s₀) (hready.withPlain plain') hseal).1
  | @tail pre post _ s₀ _ hitems hrun hseal =>
      obtain ⟨before, after, rfl, rfl, -⟩ := uploadItems_split hitems
      rw [List.map_append] at hbatches
      obtain ⟨groups, rest, hs⟩ := uploading_before hbatches.left hrun
      exact (hs.counts hseal).1

/-- Nothing was sent in recipe messages, and nothing waits. -/
structure NoRecipes (s : BaselineSender) : Prop where
  bytes : s.recipeBytes = []
  dataSize : s.recipe.dataSize = 0

/-- A batch whose entries have a multiple of `2 ^ 32` bytes leaves the byte counter at zero. -/
theorem addChunk_noRecipes (hwrap : UInt32.ofNat (p.sendChunkBatchSize * keyRecipeEntrySize) = 0)
    (h : Uploading p methodType (2 ^ 32) seen groups rest s) (hnone : NoRecipes s) (chunk : Chunk)
    {post : List Bytes}
    (hbatches : BatchesLE p.sendChunkBatchSize (2 ^ 32) (seen ++ chunk.val :: post)) :
    ∃ s' groups' rest', addChunk p methodType s chunk = .ok s' ∧
      Uploading p methodType (2 ^ 32) (seen ++ [chunk.val]) groups' rest' s' ∧ NoRecipes s' := by
  have hle := h.filling.frames_le hbatches
  obtain ⟨plain, happend, hplain⟩ := h.append le_rfl chunk hle
  by_cases hmod : plain.currentItemNum.toNat % p.sendChunkBatchSize = 0
  · obtain ⟨s₂, ks, hsend, hks, hadd, hs₂⟩ := addChunk_full h hle happend hplain hmod
    obtain ⟨t, hseal, hkept⟩ := sendChunkBatch_inv hsend
    obtain ⟨entries, hready⟩ := h.ready
    have hready₁ := hready.withPlain plain
    obtain ⟨t', ks', hseal', hks', hsealed⟩ := sealPlainChunks_ok (hplain.waits s) hready₁
    obtain rfl : t' = t := Except.ok.inj (hseal'.symm.trans hseal)
    have hlen : ks'.length = p.sendChunkBatchSize := by
      rw [← hplain.full_iff.mp hmod, ← hks', List.length_map]
    have hsize : t'.recipe.dataSize = 0 := by
      rw [hsealed.recipe.dataSize, hlen, Nat.add_mul, UInt32.ofNat_add, hwrap, UInt32.add_zero,
        ← hready.recipe.dataSize]
      exact hnone.dataSize
    have hmsgs : t'.recipeMsgs = s.recipeMsgs := by
      rw [BaselineSender.recipeMsgs, hsealed.sent, BaselineSender.recipeMsgs]
    have hbytes : t'.recipeBytes = [] := by
      rw [BaselineSender.recipeBytes, payload_of_dataSize hsize, hmsgs, List.append_nil]
      exact (List.append_eq_nil_iff.mp hnone.bytes).1
    refine ⟨_, _, _, hadd, hs₂, hkept.bytes.trans hbytes, ?_⟩
    obtain hstays | hreset := hkept.recipe
    · exact (congrArg dataSize hstays).trans hsize
    · exact congrArg dataSize hreset
  · obtain ⟨hadd, hs⟩ := addChunk_waits h happend hplain hmod
    exact ⟨_, _, _, hadd, hs, hnone.bytes, hnone.dataSize⟩

theorem addChunks_noRecipes (methodType : DAEType)
    (hwrap : UInt32.ofNat (p.sendChunkBatchSize * keyRecipeEntrySize) = 0) (heap : Nat → UInt8)
    {chunks : List Chunk}
    (hbatches : BatchesLE p.sendChunkBatchSize (2 ^ 32) (chunks.map (·.val))) :
    ∃ s, chunks.foldlM (addChunk p methodType) (.init p methodType heap) = .ok s ∧
      ∃ groups rest, Uploading p methodType (2 ^ 32) (chunks.map (·.val)) groups rest s ∧
        NoRecipes s :=
  Loops.foldlM_ok
    (P := fun (pre : List Chunk) s => ∃ groups rest,
      Uploading p methodType (2 ^ 32) (pre.map (·.val)) groups rest s ∧ NoRecipes s)
    ⟨[], [], uploading_init p methodType _ heap, payload_of_dataSize rfl, rfl⟩ (by
      rintro pre chunk post s rfl ⟨groups, rest, hs, hnone⟩
      rw [List.map_append, List.map_cons] at hbatches
      obtain ⟨s', groups', rest', hrun, hs', hnone'⟩ :=
        addChunk_noRecipes hwrap hs hnone chunk hbatches
      exact ⟨s', hrun, groups', rest', by rwa [List.map_append, List.map_singleton], hnone'⟩)

/-- As many chunks as a batch has do not wait. -/
theorem Uploading.none_waits (h : Uploading p methodType most seen groups rest s)
    (hlen : seen.length = p.sendChunkBatchSize) : rest = [] := by
  have hcount := congrArg List.length h.filling.eq
  rw [List.length_append, length_flatten_full h.filling.full, hlen] at hcount
  have hlt := h.filling.lt
  refine List.length_eq_zero_iff.mp ?_
  cases hgroups : (groups.map (List.map KeyedChunk.chunk)).length with
  | zero =>
      rw [hgroups, Nat.zero_mul] at hcount
      omega
  | succ n =>
      rw [hgroups, Nat.succ_mul] at hcount
      omega

/-- Batches of `2 ^ 26` chunks, and as many entries in the recipe buffer. -/
def recipeBaseline : BaselineParams :=
  { smallBaseline with
    sendChunkBatchSize := 67108864
    sendRecipeBatchSize := 67108864
    sendChunkBatchSize_pos := Nat.succ_pos 67108863
    sendRecipeBatchSize_pos := Nat.succ_pos 67108863
    recipe_multiple := ⟨1, rfl⟩ }

theorem length_oneByte : [(0 : UInt8)].length ≤ maxChunkSize := by decide

/-- A chunk of one byte. -/
def oneByte : Chunk := ⟨[0], length_oneByte⟩

end Debe
