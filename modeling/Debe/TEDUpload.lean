import Debe.KeyRuns

/-!
# Uploads under `TEDDAE`

The client writes the short hash of a chunk to the front of its slot; behind it there is what the
last reply left.  The key manager reads the front alone.  So the key of a chunk is the hash of its
hash and a seed, which is one of at most a fifth of its frequency and one, and the first copies of
any chunk that is rare so far have one key.
-/

namespace Debe

open Records FrameBuffer

/-! ## The key manager as the client meets it -/

variable (t : TEDSetup)

/-- A request from the client: its short hashes are counted and its slots are written over. -/
def tedServe (s : TEDKeyManager × Bytes) (request : Bytes) : TEDKeyManager × Bytes :=
  match answerSlots t (request.length / chunkHashSize) (s.1, request) with
  | .ok r => r
  | .error _ => (s.1, request)

/-- What the key manager made of the requests so far, and its last reply. -/
def tedServed (requests : List Bytes) : TEDKeyManager × Bytes :=
  requests.foldl (tedServe t) (.init, [])

/-- The reply has the size of the request. -/
theorem length_tedServe (s : TEDKeyManager × Bytes) (request : Bytes) :
    (tedServe t s request).2.length = request.length := by
  rw [tedServe]
  split
  · next r hrun =>
      refine Loops.foldlM_keeps (P := fun s : TEDKeyManager × Bytes =>
        s.2.length = request.length) rfl ?_ hrun
      intro s i s' hs hstep
      obtain ⟨slot, -, hstep⟩ := Loops.bind_eq_ok.mp hstep
      obtain ⟨dataBuffer, hwrite, hstep⟩ := Loops.bind_eq_ok.mp hstep
      cases hstep
      rw [length_of_write (inRange_eq_ok.mp hwrite), hs]
  · rfl

/-- `TEDKeyManager`, as the client meets it. -/
def tedKeyManager : KeyManager where
  reply requests := ⟨.keyManagerKeyGenReply, (tedServed t requests).2⟩
  messageType_reply _ := rfl
  length_reply _ _ := by
    dsimp only
    rw [tedServed, List.foldl_concat, length_tedServe]

variable {t} {asked answers slots : List Bytes}

/-- **A request of the client** is answered like any other. -/
theorem tedServed_concat (requests : List Bytes)
    (hslots : ∀ slot ∈ slots, slot.length = chunkHashSize)
    (hbuffer : slots.length * chunkHashSize ≤ 2 ^ 32)
    (hsmall : asked.length + slots.length < 2 ^ 32)
    (htable : TableCounts asked (tedServed t requests).1.sketchTable)
    (hanswers : TEDAnswers t asked answers) :
    ∃ seeds, (tedServed t (requests ++ [slots.flatten])).2 = seeds.flatten ∧
      (∀ seed ∈ seeds, seed.length = chunkHashSize) ∧ seeds.length = slots.length ∧
      TableCounts (asked ++ slots)
        (tedServed t (requests ++ [slots.flatten])).1.sketchTable ∧
      TEDAnswers t (asked ++ slots) (answers ++ seeds) := by
  have hnum : slots.flatten.length / chunkHashSize = slots.length := by
    rw [length_flatten_seeds hslots]
    exact Nat.mul_div_cancel _ (Nat.succ_pos _)
  obtain ⟨km', seeds, hrun, hseeds, hlen, htable', hanswers'⟩ :=
    answerSlots_ok (p := t) (tedServed t requests).1 hslots hbuffer hsmall htable hanswers []
  rw [List.append_nil, List.append_nil] at hrun
  have hserved : tedServed t (requests ++ [slots.flatten]) = (km', seeds.flatten) := by
    rw [tedServed, List.foldl_concat, ← tedServed, tedServe, hnum, hrun]
  rw [hserved]
  exact ⟨seeds, rfl, hseeds, hlen, htable', hanswers'⟩

/-! ## The request -/

variable {p : BaselineParams} {chunks : List Bytes} {plain : FrameBuffer} {size cap : Nat}

/-- The slots of the chunks so far begin with their short hashes. -/
structure FrontsAsked (p : BaselineParams) (cap : Nat) (pre : List Bytes) (b : FrameBuffer) :
    Prop where
  dataSize : b.dataSize = UInt32.ofNat (pre.length * chunkHashSize)
  length : b.dataBuffer.length = cap
  front : ∀ i c, pre[i]? = some c →
    (b.dataBuffer.drop (i * chunkHashSize)).take shortHashSize = p.murmurHash3 c

/-- A short hash goes to the front of the next slot. -/
theorem FrontsAsked.ask {pre : List Bytes} {chunk : Bytes} {b b' : FrameBuffer}
    (h : FrontsAsked p cap pre b) (hcount : pre.length * chunkHashSize < 2 ^ 32)
    (hbody : askKey chunkHashSize (tedBlock p) b pre.length chunk = .ok b') :
    FrontsAsked p cap (pre ++ [chunk]) b' := by
  obtain ⟨_, ⟨⟩, hbody⟩ := Loops.bind_eq_ok.mp hbody
  obtain ⟨dataBuffer, hwrite, hbody⟩ := Loops.bind_eq_ok.mp hbody
  cases hbody
  have hoff : b.dataSize.toNat = pre.length * chunkHashSize := by
    rw [h.dataSize, UInt32.toNat_ofNat_of_lt' hcount]
  have hwrite := inRange_eq_ok.mp hwrite
  have hkept := length_of_write hwrite
  rw [hoff, Buffer.write] at hwrite
  split at hwrite
  · next hroom =>
      obtain rfl := Option.some.inj hwrite
      have hfit : pre.length * chunkHashSize ≤ b.dataBuffer.length := by omega
      refine ⟨?_, hkept.trans h.length, fun i c hi => ?_⟩
      · rw [h.dataSize, List.length_append, List.length_singleton, Nat.succ_mul,
          UInt32.ofNat_add]
      · rcases Nat.lt_trichotomy i pre.length with hlt | rfl | hgt
        · rw [List.getElem?_append_left hlt] at hi
          have hslot : i * chunkHashSize + shortHashSize ≤ pre.length * chunkHashSize := by
            have hmul := Nat.mul_le_mul_right chunkHashSize hlt
            rw [Nat.succ_mul] at hmul
            have : shortHashSize ≤ chunkHashSize := by decide
            omega
          dsimp only
          rw [Buffer.take_drop_overwrite_of_le hslot hfit]
          exact h.front i c hi
        · rw [List.getElem?_concat_length] at hi
          obtain rfl := Option.some.inj hi
          have hself : ((Buffer.overwrite b.dataBuffer (pre.length * chunkHashSize)
              (p.murmurHash3 chunk)).drop (pre.length * chunkHashSize)).take
                (p.murmurHash3 chunk).length = p.murmurHash3 chunk :=
            Buffer.take_drop_overwrite_self hfit
          rwa [p.length_murmurHash3] at hself
        · rw [List.getElem?_eq_none (by simp; omega)] at hi
          cases hi
  · cases hwrite

/-- What is sent are slots with these fronts. -/
theorem FrontsAsked.exists_slots {b : FrameBuffer} (h : FrontsAsked p cap chunks b)
    (hcap : chunks.length * chunkHashSize ≤ cap)
    (hcount : chunks.length * chunkHashSize < 2 ^ 32) :
    ∃ slots : List Bytes, b.payload = slots.flatten ∧
      (∀ slot ∈ slots, slot.length = chunkHashSize) ∧
      slots.map (·.take shortHashSize) = chunks.map p.murmurHash3 := by
  have hpayload : b.payload.length = chunks.length * chunkHashSize := by
    rw [FrameBuffer.payload, h.dataSize, UInt32.toNat_ofNat_of_lt' hcount, List.length_take,
      h.length, Nat.min_eq_left hcap]
  obtain ⟨slots, hnum, hslots, hflat⟩ := Blocks.exists_blocks _ _ hpayload
  refine ⟨slots, hflat.symm, hslots, List.ext_getElem? fun i => ?_⟩
  rw [List.getElem?_map, List.getElem?_map]
  by_cases hi : i < chunks.length
  · have hslot := List.getElem?_eq_getElem (hnum.symm ▸ hi : i < slots.length)
    have hchunk := List.getElem?_eq_getElem hi
    have hblock : slots.flatMap id <+: b.dataBuffer := by
      rw [List.flatMap_id, hflat]
      exact List.take_prefix _ _
    have hread : slots[i] = (b.dataBuffer.drop (i * chunkHashSize)).take chunkHashSize :=
      (Blocks.block_of_prefix hblock (n := chunkHashSize) hslots hslot).symm
    rw [hslot, hchunk, Option.map_some, Option.map_some, ← h.front i _ hchunk, hread,
      List.take_take]
    rfl
  · rw [List.getElem?_eq_none (by omega), List.getElem?_eq_none (by omega)]
    rfl

/-- **The slots of a request** begin with the short hashes of the chunks. -/
theorem askTED_slots {b b' : FrameBuffer} (hplain : Written size chunks plain)
    (hdata : b.dataSize = 0) (hlen : b.dataBuffer.length = cap)
    (hcap : chunks.length * chunkHashSize ≤ cap) (hcount : chunks.length * chunkHashSize < 2 ^ 32)
    (hrun : forChunks (askKey chunkHashSize (tedBlock p)) plain b = .ok b') :
    ∃ slots : List Bytes, b'.payload = slots.flatten ∧
      (∀ slot ∈ slots, slot.length = chunkHashSize) ∧
      slots.map (·.take shortHashSize) = chunks.map p.murmurHash3 := by
  have hstart : FrontsAsked p cap [] b :=
    { dataSize := by rw [hdata, List.length_nil, Nat.zero_mul]; rfl
      length := hlen
      front := by simp }
  have hasked : FrontsAsked p cap chunks b' := by
    refine forChunks_keeps (P := FrontsAsked p cap) hplain hstart ?_ hrun
    rintro pre chunk rest b b' rfl hb hbody
    refine hb.ask ((Nat.mul_le_mul_right _ ?_).trans_lt hcount) hbody
    exact (List.prefix_append pre _).length_le
  exact hasked.exists_slots hcap hcount

/-! ## A batch -/

/-- The key of a chunk with a seed. -/
def tedChunkKey (p : BaselineParams) (chunk seed : Bytes) : Bytes :=
  p.crypto.generateHash (p.crypto.generateHash chunk ++ seed)

theorem length_tedChunkKey (p : BaselineParams) (chunk seed : Bytes) :
    (tedChunkKey p chunk seed).length = chunkHashSize :=
  p.crypto.length_generateHash _

/-- After the round the buffer begins with the seeds. -/
theorem keyGenRound_seeds {dae dae' : DAE} (hmanager : p.keyManager = tedKeyManager t)
    (hplain : Written size chunks plain) (hready : dae.Ready cap)
    (hcap : chunks.length * chunkHashSize ≤ cap) (hcount : chunks.length * chunkHashSize < 2 ^ 32)
    (hsmall : asked.length + chunks.length < 2 ^ 32)
    (htable : TableCounts asked (tedServed t dae.requests).1.sketchTable)
    (hanswers : TEDAnswers t asked answers)
    (hrun : keyGenRound p chunkHashSize (tedBlock p) plain dae = .ok dae') :
    ∃ slots seeds : List Bytes, slots.map (·.take shortHashSize) = chunks.map p.murmurHash3 ∧
      (∀ seed ∈ seeds, seed.length = chunkHashSize) ∧ seeds.length = chunks.length ∧
      seeds.flatten <+: dae'.keyGenBuf.dataBuffer ∧
      TableCounts (asked ++ slots) (tedServed t dae'.requests).1.sketchTable ∧
      TEDAnswers t (asked ++ slots) (answers ++ seeds) := by
  obtain ⟨b, hloop, hrun⟩ := Loops.bind_eq_ok.mp hrun
  obtain ⟨slots, hpayload, hslots, hfronts⟩ :=
    askTED_slots hplain hready.dataSize hready.length hcap hcount hloop
  have hnum : slots.length = chunks.length := by
    rw [← List.length_map (f := (·.take shortHashSize)), hfronts, List.length_map]
  obtain ⟨seeds, hreply, hseeds, hlen, htable', hanswers'⟩ :=
    tedServed_concat dae.requests hslots (hnum ▸ hcount.le) (hnum ▸ hsmall) htable hanswers
  dsimp only at hrun
  split at hrun
  · cases hrun
  obtain ⟨dataBuffer, hwrite, hrun⟩ := Loops.bind_eq_ok.mp hrun
  cases hrun
  have hdata : (p.keyManager.reply (dae.requests ++ [b.payload])).data = seeds.flatten := by
    rw [hmanager, hpayload]
    exact hreply
  rw [hdata] at hwrite
  have hwritten := Buffer.prefix_of_write List.nil_prefix (inRange_eq_ok.mp hwrite)
  refine ⟨slots, seeds, hfronts, hseeds, hlen.trans hnum, hwritten, ?_, hanswers'⟩
  dsimp only
  rw [hpayload]
  exact htable'

/-- The key of a chunk comes from the seed in its slot. -/
theorem tedKey_eq {dae : DAE} {seeds : List Bytes}
    (hseeds : ∀ seed ∈ seeds, seed.length = chunkHashSize)
    (hbegins : seeds.flatten <+: dae.keyGenBuf.dataBuffer)
    (hcount : seeds.length * chunkHashSize < 2 ^ 32) {i : Nat} {seed : Bytes}
    (hget : seeds[i]? = some seed) (chunk : Bytes) :
    tedKey p dae i chunk = .ok (tedChunkKey p chunk seed) := by
  obtain ⟨hi, -⟩ := List.getElem?_eq_some_iff.mp hget
  rw [← List.flatMap_id] at hbegins
  have hmod : i * chunkHashSize % 2 ^ 32 = i * chunkHashSize :=
    Nat.mod_eq_of_lt ((Nat.mul_le_mul_right _ hi.le).trans_lt hcount)
  have hle := (Blocks.block_le hseeds hget).trans hbegins.length_le
  have hblock : (dae.keyGenBuf.dataBuffer.drop (i * chunkHashSize)).take chunkHashSize = seed :=
    Blocks.block_of_prefix hbegins hseeds hget
  have hslot : replySlot chunkHashSize dae i = .ok seed := by
    rw [replySlot, hmod, Buffer.read, if_pos hle, hblock]
    rfl
  rw [tedKey, hslot]
  rfl

/-- The keys of a batch are those of its seeds. -/
theorem ted_batch_keys {s s' : BatchState} (hmanager : p.keyManager = tedKeyManager t)
    (hplain : Written size chunks plain) (hready : s.dae.Ready cap)
    (hcap : chunks.length * chunkHashSize ≤ cap) (hcount : chunks.length * chunkHashSize < 2 ^ 32)
    (hsmall : asked.length + chunks.length < 2 ^ 32)
    (htable : TableCounts asked (tedServed t s.dae.requests).1.sketchTable)
    (hanswers : TEDAnswers t asked answers)
    (hrun : processBatchChunk p .ted plain s = .ok s') :
    ∃ slots seeds : List Bytes, slots.map (·.take shortHashSize) = chunks.map p.murmurHash3 ∧
      seeds.length = chunks.length ∧
      s'.dae.keyRecipeFile = s.dae.keyRecipeFile ++
        (chunks.zip seeds).flatMap (fun e => tedChunkKey p e.1 e.2) ∧
      TableCounts (asked ++ slots) (tedServed t s'.dae.requests).1.sketchTable ∧
      TEDAnswers t (asked ++ slots) (answers ++ seeds) := by
  obtain ⟨dae, hround, hrun⟩ := Loops.bind_eq_ok.mp hrun
  obtain ⟨s₁, hloop, hrun⟩ := Loops.bind_eq_ok.mp hrun
  cases hrun
  obtain ⟨slots, seeds, hfronts, hseeds, hlen, hbegins, htable', hanswers'⟩ :=
    keyGenRound_seeds hmanager hplain hready hcap hcount hsmall htable hanswers hround
  have hfile := keyGenRound_inv hround
  obtain ⟨hkeys, hrequests⟩ := forChunks_keeps (P := fun pre (t : BatchState) =>
    t.dae.keyRecipeFile = s.dae.keyRecipeFile ++
      (pre.zip (seeds.take pre.length)).flatMap (fun e => tedChunkKey p e.1 e.2) ∧
    t.dae.requests = dae.requests) hplain
    ⟨hfile.trans (List.append_nil _).symm, rfl⟩ (by
      rintro pre chunk rest u u' hcut ⟨hu, hrequests⟩ hseal
      obtain ⟨key, -, hk, -, hadded, -⟩ := sealChunk_inv hseal
      have hlt : pre.length < seeds.length := by
        rw [hlen, hcut, List.length_append, List.length_cons]
        omega
      have hget := List.getElem?_eq_getElem hlt
      rw [tedKey_eq hseeds hbegins (hlen ▸ hcount) hget] at hk
      refine ⟨?_, ?_⟩
      · rw [hadded, hu, ← Except.ok.inj hk, List.length_append, List.length_singleton,
          List.take_succ_eq_append_getElem hlt, List.zip_append (by
            rw [List.length_take_of_le hlt.le]), List.flatMap_append, List.append_assoc]
        simp only [List.zip_cons_cons, List.zip_nil_right, List.flatMap_cons, List.flatMap_nil,
          List.append_nil]
      · obtain ⟨_, -, hseal⟩ := Loops.bind_eq_ok.mp hseal
        obtain ⟨_, -, hseal⟩ := Loops.bind_eq_ok.mp hseal
        obtain ⟨_, -, hseal⟩ := Loops.bind_eq_ok.mp hseal
        cases hseal
        exact hrequests) hloop
  rw [← hlen, List.take_length] at hkeys
  refine ⟨slots, seeds, hfronts, hlen, hkeys, ?_, hanswers'⟩
  dsimp only
  rw [hrequests]
  exact htable'

/-! ## A whole upload -/

/-- A batch of keys in the file is read in one way. -/
theorem forall₂_of_keys {ks : List KeyedChunk} {seeds : List Bytes}
    (hlen : seeds.length = (ks.map KeyedChunk.chunk).length)
    (hfile : ks.flatMap KeyedChunk.key =
      ((ks.map KeyedChunk.chunk).zip seeds).flatMap fun e => tedChunkKey p e.1 e.2) :
    List.Forall₂ (fun k seed => k.key = tedChunkKey p k.chunk seed) ks seeds := by
  induction ks generalizing seeds with
  | nil =>
      obtain rfl := List.length_eq_zero_iff.mp hlen
      exact .nil
  | cons k ks ih =>
      cases seeds with
      | nil => cases hlen
      | cons seed seeds =>
          obtain ⟨hkey, hrest⟩ := List.append_inj hfile
            (k.length_key.trans (length_tedChunkKey p k.chunk seed).symm)
          exact .cons hkey (ih (Nat.succ.inj hlen) hrest)

/-- The keys so far are those of the seeds that the key manager gave for the short hashes, as long
as not more than `total` chunks were uploaded. -/
def TEDKeyed (p : BaselineParams) (t : TEDSetup) (total : Nat) (done : List KeyedChunk)
    (dae : DAE) : Prop :=
  done.length ≤ total → ∃ slots seeds : List Bytes,
    slots.map (·.take shortHashSize) = (done.map KeyedChunk.chunk).map p.murmurHash3 ∧
    TableCounts slots (tedServed t dae.requests).1.sketchTable ∧ TEDAnswers t slots seeds ∧
    List.Forall₂ (fun k seed => k.key = tedChunkKey p k.chunk seed) done seeds

/-- **A batch** of `TEDDAE`. -/
theorem ted_keeps (hmanager : p.keyManager = tedKeyManager t)
    (hbatch : p.sendChunkBatchSize * chunkHashSize < 2 ^ 32) {total : Nat}
    (htotal : total < 2 ^ 32) : BatchKeeps p .ted (TEDKeyed p t total) := by
  intro done ks plain s s' hgood hplain hlen hready hrun hfile hle
  rw [List.length_append] at hle
  obtain ⟨asked, answers, hfronts, htable, hanswers, hkeys⟩ := hgood (by omega)
  have hasked : asked.length = done.length := by
    rw [← List.length_map (f := (·.take shortHashSize)), hfronts, List.length_map, List.length_map]
  have hcap : (ks.map KeyedChunk.chunk).length * chunkHashSize ≤
      p.sendChunkBatchSize * chunkHashSize := by
    rw [List.length_map]
    exact Nat.mul_le_mul_right _ hlen
  obtain ⟨slots, seeds, hfronts', hseeds, hadded, htable', hanswers'⟩ :=
    ted_batch_keys hmanager hplain hready hcap (hcap.trans_lt hbatch) (by
      rw [hasked, List.length_map]
      omega) htable hanswers hrun
  refine ⟨asked ++ slots, answers ++ seeds, ?_, htable', hanswers', ?_⟩
  · rw [List.map_append, hfronts, hfronts', List.map_append, List.map_append]
  · exact List.rel_append hkeys
      (forall₂_of_keys hseeds (List.append_cancel_left (hfile.symm.trans hadded)))

/-- The frequency that the key manager estimates for a chunk among some chunks. -/
def tedChunkFreq (p : BaselineParams) (chunks : List Bytes) (chunk : Bytes) : Nat :=
  tedFreq (chunks.map p.murmurHash3) (p.murmurHash3 chunk)

/-- A frequency depends on the fronts of the slots. -/
theorem tedFreq_fronts (slots : List Bytes) (slot : Bytes) :
    tedFreq slots slot =
      tedFreq (slots.map (·.take shortHashSize)) (slot.take shortHashSize) := by
  have hpos : ∀ s : Bytes, slotPos (s.take shortHashSize) = slotPos s := by
    intro s
    unfold slotPos
    rw [List.take_take, Nat.min_self]
  unfold tedFreq
  refine CountMin.least_congr fun j _ => ?_
  rw [List.countP_map, hpos]
  refine List.countP_congr fun s _ => ?_
  simp only [Function.comp_apply, hpos]

/-- No chunk is estimated to be rarer than it is. -/
theorem count_le_tedChunkFreq (p : BaselineParams) {chunks : List Bytes}
    (hsmall : chunks.length < 2 ^ 32) (chunk : Bytes) :
    chunks.count chunk ≤ tedChunkFreq p chunks chunk := by
  refine le_trans ?_ (countP_le_tedFreq (by rwa [List.length_map]) _)
  rw [List.countP_map, List.count]
  refine List.countP_mono_left fun c _ hc => ?_
  rw [beq_iff_eq] at hc
  subst hc
  exact decide_eq_true rfl

/-- What an upload under `TEDDAE` leaves: the keys of the chunks in the file, and the chunks under
these keys sent.  The key of a chunk comes from its seed for a number of at most a fifth of the
frequency that is estimated when it is its turn; the first keys of a chunk that is estimated to be
rare are the same; it never has more keys than a fifth of its frequency and one; and no chunk is
estimated to be rarer than it is. -/
structure TEDUploaded (p : BaselineParams) (t : TEDSetup) (chunks : List Bytes)
    (ks : List KeyedChunk) (s : BaselineSender) : Prop where
  inOrder : ks.map KeyedChunk.chunk = chunks
  keyRecipeFile : s.dae.keyRecipeFile = ks.flatMap KeyedChunk.key
  sent : ∀ stale, s.sentChunks stale = ks.map fun k => p.crypto.encryptWithKey k.key k.chunk
  keys : ∀ i k, ks[i]? = some k →
    ∃ param ≤ tedChunkFreq p (chunks.take (i + 1)) k.chunk / tedT,
      k.key = tedChunkKey p k.chunk (tedSeed t.crypto (p.murmurHash3 k.chunk) param)
  rare : ∀ i k, ks[i]? = some k → tedChunkFreq p (chunks.take (i + 1)) k.chunk < tedT →
    k.key = tedChunkKey p k.chunk (tedSeed t.crypto (p.murmurHash3 k.chunk) 0)
  few : ∀ c, ((ks.filter fun k => k.chunk = c).map KeyedChunk.key).toFinset.card ≤
    tedChunkFreq p chunks c / tedT + 1
  counted : ∀ i k, ks[i]? = some k →
    (chunks.take (i + 1)).count k.chunk ≤ tedChunkFreq p (chunks.take (i + 1)) k.chunk

/-- The frequency grows with the chunks. -/
theorem tedChunkFreq_take_le (p : BaselineParams) (chunks : List Bytes) (n : Nat)
    (chunk : Bytes) : tedChunkFreq p (chunks.take n) chunk ≤ tedChunkFreq p chunks chunk := by
  have hmono := tedFreq_le_append ((chunks.take n).map p.murmurHash3)
    ((chunks.drop n).map p.murmurHash3) (p.murmurHash3 chunk)
  rwa [← List.map_append, List.take_append_drop] at hmono

/-- The numbers for the keys of an upload. -/
theorem TEDKeyed.keys {total : Nat} {ks : List KeyedChunk} {dae : DAE}
    (h : TEDKeyed p t total ks dae) (hlen : ks.length ≤ total) {i : Nat} {k : KeyedChunk}
    (hk : ks[i]? = some k) :
    ∃ param ≤ tedChunkFreq p ((ks.map KeyedChunk.chunk).take (i + 1)) k.chunk / tedT,
      k.key = tedChunkKey p k.chunk (tedSeed t.crypto (p.murmurHash3 k.chunk) param) := by
  obtain ⟨slots, seeds, hfronts, -, hanswers, hkeys⟩ := h hlen
  have hfront : (slots.map (·.take shortHashSize))[i]? = some (p.murmurHash3 k.chunk) := by
    rw [hfronts, List.getElem?_map, List.getElem?_map, hk]
    rfl
  rw [List.getElem?_map, Option.map_eq_some_iff] at hfront
  obtain ⟨slot, hslot, hshort⟩ := hfront
  obtain ⟨param, hparam, hseed⟩ := hanswers.seed i slot hslot
  rw [tedFreq_fronts, List.map_take, hfronts, hshort, ← List.map_take] at hparam
  rw [hshort] at hseed
  obtain ⟨hi, rfl⟩ := List.getElem?_eq_some_iff.mp hk
  obtain ⟨hi', hget⟩ := List.getElem?_eq_some_iff.mp hseed
  refine ⟨param, hparam, ?_⟩
  rw [← hget]
  exact (List.forall₂_iff_get.mp hkeys).2 i hi hi'

/-- The copies of a chunk while it is rare. -/
theorem TEDKeyed.rare {total : Nat} {ks : List KeyedChunk} {dae : DAE}
    (h : TEDKeyed p t total ks dae) (hlen : ks.length ≤ total) {i : Nat} {k : KeyedChunk}
    (hk : ks[i]? = some k)
    (hrare : tedChunkFreq p ((ks.map KeyedChunk.chunk).take (i + 1)) k.chunk < tedT) :
    k.key = tedChunkKey p k.chunk (tedSeed t.crypto (p.murmurHash3 k.chunk) 0) := by
  obtain ⟨param, hparam, hkey⟩ := h.keys hlen hk
  rw [Nat.div_eq_of_lt hrare, Nat.le_zero] at hparam
  rwa [hparam] at hkey

/-- The number of keys of a chunk. -/
theorem TEDKeyed.few {total : Nat} {ks : List KeyedChunk} {dae : DAE}
    (h : TEDKeyed p t total ks dae) (hlen : ks.length ≤ total) (c : Bytes) :
    ((ks.filter fun k => k.chunk = c).map KeyedChunk.key).toFinset.card ≤
      tedChunkFreq p (ks.map KeyedChunk.chunk) c / tedT + 1 := by
  refine card_toFinset_le_succ
    (fun param => tedChunkKey p c (tedSeed t.crypto (p.murmurHash3 c) param)) fun key hkey => ?_
  obtain ⟨k, hk, rfl⟩ := List.mem_map.mp hkey
  rw [List.mem_filter, decide_eq_true_eq] at hk
  obtain ⟨hk, rfl⟩ := hk
  obtain ⟨i, hi⟩ := List.mem_iff_getElem?.mp hk
  obtain ⟨param, hparam, hkey⟩ := h.keys hlen hi
  exact ⟨param, hparam.trans (Nat.div_le_div_right (tedChunkFreq_take_le p _ _ _)), hkey⟩

/-- **A run** of the client: its keys are those of the seeds that it was given. -/
theorem ted_run (p : BaselineParams) (t : TEDSetup) (hmanager : p.keyManager = tedKeyManager t)
    (hbatch : p.sendChunkBatchSize * chunkHashSize < 2 ^ 32) (heap : Nat → UInt8)
    (chunks : List Chunk) (recipeHead : FileRecipeHead) (hsmall : chunks.length < 2 ^ 32)
    (hfit : BatchesFit p.sendChunkBatchSize (chunks.map (·.val))) :
    ∃ s groups, baselineSenderRun p .ted heap (uploadItems chunks recipeHead) = .ok s ∧
      UploadDone p .ted (2 ^ 32 - 1) (chunks.map (·.val)) groups s ∧
      groups.flatten.length ≤ chunks.length ∧
      TEDKeyed p t chunks.length groups.flatten s.dae := by
  have hbatches : BatchesLE p.sendChunkBatchSize (2 ^ 32 - 1) (chunks.map (·.val)) :=
    fun k => Nat.le_pred_of_lt (hfit k)
  obtain ⟨s, groups, hrun, hdone, hgood⟩ := upload_keeps
    (ted_keeps hmanager hbatch hsmall) heap
    (fun _ => ⟨[], [], rfl, fun j b _ => rfl, TEDAnswers.nil t, .nil⟩) (by decide) hbatches
    recipeHead
  refine ⟨s, groups, hrun, hdone, ?_, hgood⟩
  rw [← List.length_map (f := KeyedChunk.chunk), hdone.chunks, List.length_map]

/-- **Uploads under `TEDDAE`.**  Whatever numbers the key manager draws: the upload runs through,
and every chunk is sent under a key that is its own up to a number that grows with its frequency
among the chunks so far. -/
theorem ted_upload (p : BaselineParams) (t : TEDSetup) (hmanager : p.keyManager = tedKeyManager t)
    (hbatch : p.sendChunkBatchSize * chunkHashSize < 2 ^ 32) (heap : Nat → UInt8)
    (chunks : List Chunk) (recipeHead : FileRecipeHead) (hsmall : chunks.length < 2 ^ 32)
    (hfit : BatchesFit p.sendChunkBatchSize (chunks.map (·.val))) :
    ∃ s ks, baselineSenderRun p .ted heap (uploadItems chunks recipeHead) = .ok s ∧
      TEDUploaded p t (chunks.map (·.val)) ks s := by
  obtain ⟨s, groups, hrun, hdone, hlen, hgood⟩ :=
    ted_run p t hmanager hbatch heap chunks recipeHead hsmall hfit
  obtain ⟨ks, hks, hfile, hsent⟩ := hdone.aligned (by decide)
  obtain rfl : ks = groups.flatten := keyed_ext (hks.trans hdone.chunks.symm)
    (hfile.symm.trans hdone.keyRecipeFile)
  have hmany : ∀ n, ((chunks.map (·.val)).take n).length < 2 ^ 32 := fun n =>
    (List.take_prefix _ _).length_le.trans_lt (by rwa [List.length_map])
  refine ⟨s, groups.flatten, hrun, ?_⟩
  rw [← hks] at hmany ⊢
  exact {
    inOrder := rfl
    keyRecipeFile := hfile
    sent := hsent
    keys := fun i k hk => hgood.keys hlen hk
    rare := fun i k hk hrare => hgood.rare hlen hk hrare
    few := hgood.few hlen
    counted := fun i k _ => count_le_tedChunkFreq p (hmany _) k.chunk }

/-- A client with the small key manager. -/
def smallTEDClient : BaselineParams :=
  { smallDupless with keyManager := tedKeyManager smallTED }

/-- A chunk that is uploaded twice is sent under one key. -/
theorem ted_upload_small :
    ∃ s, baselineSenderRun smallTEDClient .ted (fun _ => 0)
        (uploadItems [⟨[7, 8], by decide⟩, ⟨[9], by decide⟩, ⟨[7, 8], by decide⟩] ⟨4, 3⟩) =
          .ok s ∧
      ∃ ks : List KeyedChunk, s.dae.keyRecipeFile = ks.flatMap KeyedChunk.key ∧
        ks.map KeyedChunk.chunk = [[7, 8], [9], [7, 8]] ∧
        ks.map KeyedChunk.key = [
          tedChunkKey smallTEDClient [7, 8]
            (tedSeed maskCrypto ([7, 8] ++ List.replicate 14 0) 0),
          tedChunkKey smallTEDClient [9] (tedSeed maskCrypto ([9] ++ List.replicate 15 0) 0),
          tedChunkKey smallTEDClient [7, 8]
            (tedSeed maskCrypto ([7, 8] ++ List.replicate 14 0) 0)] := by
  obtain ⟨s, ks, hrun, hdone⟩ := ted_upload smallTEDClient smallTED rfl (by decide) (fun _ => 0)
    [⟨[7, 8], by decide⟩, ⟨[9], by decide⟩, ⟨[7, 8], by decide⟩] ⟨4, 3⟩ (by decide)
    (batchesFit_of_chunkBufferSize (p := smallTEDClient) (by decide) _)
  have hchunks : ks.map KeyedChunk.chunk = [[7, 8], [9], [7, 8]] := hdone.inOrder
  refine ⟨s, hrun, ks, hdone.keyRecipeFile, hchunks, ?_⟩
  obtain ⟨a, ks, rfl, ha, hchunks⟩ := List.map_eq_cons_iff.mp hchunks
  obtain ⟨b, ks, rfl, hb, hchunks⟩ := List.map_eq_cons_iff.mp hchunks
  obtain ⟨c, ks, rfl, hc, hchunks⟩ := List.map_eq_cons_iff.mp hchunks
  obtain rfl := List.map_eq_nil_iff.mp hchunks
  have ha' := hdone.rare 0 a rfl (by rw [ha]; decide +kernel)
  have hb' := hdone.rare 1 b rfl (by rw [hb]; decide +kernel)
  have hc' := hdone.rare 2 c rfl (by rw [hc]; decide +kernel)
  rw [ha] at ha'
  rw [hb] at hb'
  rw [hc] at hc'
  rw [List.map_cons, List.map_cons, List.map_cons, List.map_nil, ha', hb', hc']
  rfl

end Debe
