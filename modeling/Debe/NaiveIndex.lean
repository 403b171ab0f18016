import Debe.FreqPasses

/-!
# The naive index, and the frequency index against it

The specification of exact deduplication: keep a map from fingerprints to
addresses, store a chunk when its fingerprint is not in the map, and otherwise
reuse the address.  Storing, recipe and counters are the functions that the
index designs call too, so two runs that make the same decisions end in the
same `Upload`, container bytes, recipe bytes and statistics included.

`FreqRel` ties the frequency index to the map: heap and out-enclave index hold
addresses of the map only, and the out-enclave index covers it.  The batched
`ProcessOneBatch` keeps `FreqRel` and follows the specification chunk by chunk.
-/

namespace Debe

open Records

/-- The state of the specification. -/
structure Naive where
  stored : AList (fun _ : Bytes => RecipeEntry)
  upload : Upload

/-- Store a chunk whose fingerprint was never stored before, else reuse the address. -/
def naiveChunk (p : Params) (n : Naive) (chunk : Bytes) : Naive :=
  let fp := p.crypto.generateHash chunk
  match n.stored.lookup fp with
  | some a => { n with upload := recordChunk p fp chunk.length a n.upload }
  | none =>
      let r := storeUnique p chunk n.upload
      { stored := n.stored.insert fp r.1
        upload := recordChunk p fp chunk.length r.1 r.2 }

/-- The specification on a run of chunks. -/
def naiveChunks (p : Params) (n : Naive) (chunks : List Bytes) : Naive :=
  chunks.foldl (naiveChunk p) n

/-- A fingerprint already stored. -/
theorem naiveChunk_reuse {p : Params} {n : Naive} {chunk : Bytes} {a : RecipeEntry}
    (h : n.stored.lookup (p.crypto.generateHash chunk) = some a) :
    naiveChunk p n chunk =
      { n with upload := recordChunk p (p.crypto.generateHash chunk) chunk.length a n.upload } := by
  simp only [naiveChunk, h]

/-- A fingerprint never stored. -/
theorem naiveChunk_store {p : Params} {n : Naive} {chunk : Bytes}
    (h : n.stored.lookup (p.crypto.generateHash chunk) = none) :
    naiveChunk p n chunk =
      { stored := n.stored.insert (p.crypto.generateHash chunk) (storeUnique p chunk n.upload).1
        upload := recordChunk p (p.crypto.generateHash chunk) chunk.length
          (storeUnique p chunk n.upload).1 (storeUnique p chunk n.upload).2 } := by
  simp only [naiveChunk, h]

/-- The specification's map only grows. -/
theorem naiveChunks_stored_mono (p : Params) (n : Naive) (chunks : List Bytes) :
    ∀ fp a, n.stored.lookup fp = some a →
      (naiveChunks p n chunks).stored.lookup fp = some a := by
  induction chunks generalizing n with
  | nil => exact fun _ _ h => h
  | cons chunk chunks ih =>
      intro fp a h
      apply ih (naiveChunk p n chunk) fp a
      cases hl : n.stored.lookup (p.crypto.generateHash chunk) with
      | some a' => rw [naiveChunk_reuse hl]; exact h
      | none =>
          have hne : fp ≠ p.crypto.generateHash chunk := by
            rintro rfl
            rw [hl] at h
            cases h
          rw [naiveChunk_store hl]
          dsimp only
          rw [AList.lookup_insert_ne hne]
          exact h

/-! ## Messages -/

/-- The chunks of one `CLIENT_UPLOAD_CHUNK` message: at most a send batch, and
few enough for the 32-bit count in the header. -/
structure Batch (p : Params) where
  chunks : List Chunk
  length_le : chunks.length ≤ p.sendChunkBatchSize
  length_lt : chunks.length < 2 ^ 32

/-- The bytes of the chunks. -/
def Batch.data {p : Params} (b : Batch p) : List Bytes := b.chunks.map Subtype.val

/-- The message a client with this session key sends for a batch. -/
def Batch.msg {p : Params} (b : Batch p) (sessionKey : Bytes) : UploadMsg where
  currentItemNum := UInt32.ofNat b.chunks.length
  dataBuffer := p.crypto.sessionKeyEnc sessionKey (frames b.data)

theorem Batch.length_data_le {p : Params} (b : Batch p) :
    ∀ c ∈ b.data, c.length ≤ maxChunkSize := by
  intro c hc
  obtain ⟨chunk, _, rfl⟩ := List.mem_map.mp hc
  exact chunk.2

/-- The enclave reads back the chunks that the client framed. -/
theorem recvChunks_msg {p : Params} (b : Batch p) (sessionKey : Bytes) :
    recvChunks p sessionKey (b.msg sessionKey) = b.data := by
  have hnum : (UInt32.ofNat b.chunks.length).toNat = b.data.length := by
    rw [UInt32.toNat_ofNat_of_lt' b.length_lt]
    simp [Batch.data]
  have hfit : ∀ c ∈ b.data, c.length < 2 ^ 32 := by
    intro c hc
    have hle := b.length_data_le c hc
    unfold maxChunkSize at hle
    omega
  unfold recvChunks Batch.msg
  dsimp only
  rw [p.crypto.sessionKeyDec_sessionKeyEnc, hnum, readRecords_frames b.data hfit]

/-! ## The batched frequency index follows the specification -/

/-- The addresses the map allows for a fingerprint. -/
def InMap (stored : AList (fun _ : Bytes => RecipeEntry)) (fp : Bytes) (a : RecipeEntry) : Prop :=
  stored.lookup fp = some a

/-- Every fingerprint of the map is in the out-enclave index. -/
def Covers (p : Params) (out : OutIndex) (stored : AList (fun _ : Bytes => RecipeEntry)) : Prop :=
  ∀ fp, fp.length = chunkHashSize →
    out.lookup (p.crypto.indexAESCMCEnc p.indexQueryKey fp) = none → stored.lookup fp = none

/-- Frequency index and out-enclave index stand for the map. -/
structure FreqRel (p : Params) (idx : FreqIndex) (out : OutIndex)
    (stored : AList (fun _ : Bytes => RecipeEntry)) : Prop where
  heap : HeapGood p (InMap stored) idx.insideDedupIndex
  outside : OutGood p (InMap stored) out
  covers : Covers p out stored

theorem freqRel_init (p : Params) : FreqRel p .init ∅ ∅ where
  heap := heapGood_empty p _
  outside := outGood_empty p _
  covers := by
    intro fp _ _
    rfl

/-- A new key does not disturb the addresses already in the map. -/
theorem inMap_insert {stored : AList (fun _ : Bytes => RecipeEntry)} {fp : Bytes}
    (hnew : stored.lookup fp = none) (a : RecipeEntry) :
    ∀ fp' a', InMap stored fp' a' → InMap (stored.insert fp a) fp' a' := by
  intro fp' a' h
  have hne : fp' ≠ fp := by
    rintro rfl
    rw [InMap, hnew] at h
    cases h
  rw [InMap, AList.lookup_insert_ne hne]
  exact h

/-- Adding the same fingerprint to both sides. -/
theorem Covers.insert {p : Params} {out : OutIndex}
    {stored : AList (fun _ : Bytes => RecipeEntry)} (h : Covers p out stored) {fp : Bytes}
    (hlen : fp.length = chunkHashSize) (a : RecipeEntry) (value : Bytes) :
    Covers p (out.insert (p.crypto.indexAESCMCEnc p.indexQueryKey fp) value)
      (stored.insert fp a) := by
  intro fp' hlen' hnone
  by_cases hfp : fp' = fp
  · subst hfp
    rw [AList.lookup_insert] at hnone
    cases hnone
  · have hkey : p.crypto.indexAESCMCEnc p.indexQueryKey fp' ≠
        p.crypto.indexAESCMCEnc p.indexQueryKey fp := fun hk =>
      hfp (p.crypto.indexAESCMCEnc_inj (by rw [hlen']; rfl) (by rw [hlen]; rfl) hk)
    rw [AList.lookup_insert_ne hkey] at hnone
    rw [AList.lookup_insert_ne hfp]
    exact h fp' hlen' hnone

theorem sketchSectionAt_fields (rowPos : Bytes → Nat → Nat) (sketch : CMSketch)
    (es : List InQueryEntry) :
    (sketchSectionAt rowPos sketch es).2.map InQueryEntry.chunkHash =
      es.map InQueryEntry.chunkHash ∧
    (sketchSectionAt rowPos sketch es).2.map InQueryEntry.chunkSize =
      es.map InQueryEntry.chunkSize := by
  induction es generalizing sketch with
  | nil => exact ⟨rfl, rfl⟩
  | cons e es ih =>
      obtain ⟨hh, hs⟩ := ih (sketch.updateAt rowPos e.chunkHash 1)
      simp [sketchSectionAt, hh, hs]

theorem sketchSectionAt_depth (rowPos : Bytes → Nat → Nat) (sketch : CMSketch)
    (es : List InQueryEntry) : (sketchSectionAt rowPos sketch es).1.depth = sketch.depth := by
  induction es generalizing sketch with
  | nil => rfl
  | cons e es ih => exact ih (sketch.updateAt rowPos e.chunkHash 1)

theorem sketchSection_fields (sketch : CMSketch) (es : List InQueryEntry) :
    (sketchSection sketch es).2.map InQueryEntry.chunkHash = es.map InQueryEntry.chunkHash ∧
    (sketchSection sketch es).2.map InQueryEntry.chunkSize = es.map InQueryEntry.chunkSize := by
  rw [sketchSection_eq_at]
  exact sketchSectionAt_fields _ _ _

/-- The store loop after the pairs `pre`: it is where the specification is, and
the map it started from has changed at the fingerprints of `pre` only. -/
structure StoreSim (p : Params) (n : Naive) (out : OutIndex) (es : List InQueryEntry)
    (pre : List (InQueryEntry × Bytes)) (s : StoreState) : Prop where
  length : s.done.length = pre.length
  upload : s.upload = (naiveChunks p n (pre.map Prod.snd)).upload
  inv : StoreInv p (InMap (naiveChunks p n (pre.map Prod.snd)).stored)
    (fun fp => n.stored.lookup fp = none) es s
  frame : ∀ fp, fp ∉ (es.map InQueryEntry.chunkHash).take pre.length →
    (naiveChunks p n (pre.map Prod.snd)).stored.lookup fp = n.stored.lookup fp
  covers : Covers p (ocallUpdateOutIndex out s.outDone)
    (naiveChunks p n (pre.map Prod.snd)).stored

section Round

variable {p : Params} {n : Naive} {out : OutIndex} {es : List InQueryEntry}
  {pre : List (InQueryEntry × Bytes)} {s s' : StoreState} {e : InQueryEntry} {chunk : Bytes}

theorem naiveChunks_concat (p : Params) (n : Naive) (pre : List (InQueryEntry × Bytes))
    (ec : InQueryEntry × Bytes) :
    naiveChunks p n ((pre ++ [ec]).map Prod.snd) =
      naiveChunk p (naiveChunks p n (pre.map Prod.snd)) ec.2 := by
  rw [naiveChunks, List.map_append, List.foldl_append]
  rfl

/-- Outside the hashes of one more round the specification's map is still that of the start. -/
theorem StoreSim.frame_concat (h : StoreSim p n out es pre s) {fp : Bytes}
    (hfp : fp ∉ (es.map InQueryEntry.chunkHash).take (pre ++ [(e, chunk)]).length) :
    (naiveChunks p n (pre.map Prod.snd)).stored.lookup fp = n.stored.lookup fp := by
  apply h.frame
  intro hold
  rw [List.length_append] at hfp
  exact hfp (List.take_subset_take_left _ (Nat.le_add_right _ _) hold)

/-- The chunk was found: the specification reuses the same address. -/
theorem StoreSim.reused (h : StoreSim p n out es pre s)
    (hhash : e.chunkHash = p.crypto.generateHash chunk) (hsize : e.chunkSize = chunk.length)
    (hlen : s'.done.length = s.done.length + 1)
    (hreused : Reused p (InMap (naiveChunks p n (pre.map Prod.snd)).stored)
      (fun fp => n.stored.lookup fp = none) es s e s') :
    StoreSim p n out es (pre ++ [(e, chunk)]) s' := by
  obtain ⟨⟨a, hgood, hup⟩, hq, hinv⟩ := hreused
  rw [InMap, hhash] at hgood
  have hnext := naiveChunks_concat p n pre (e, chunk)
  rw [naiveChunk_reuse hgood] at hnext
  refine ⟨by simp [hlen, h.length], ?_, ?_, ?_, ?_⟩
  · rw [hnext, hup, h.upload, hhash, hsize]
  · rw [hnext]
    exact hinv
  · intro fp hfp
    rw [hnext]
    exact h.frame_concat hfp
  · rw [hnext, hq]
    exact h.covers

/-- The chunk was missing outside and is new in the batch: the specification stores it too. -/
theorem StoreSim.storedNew (h : StoreSim p n out es pre s) (he : es[pre.length]? = some e)
    (hhash : e.chunkHash = p.crypto.generateHash chunk) (hsize : e.chunkSize = chunk.length)
    (hlen : s'.done.length = s.done.length + 1)
    (hstored : StoredNew p (InMap (naiveChunks p n (pre.map Prod.snd)).stored)
      (fun fp => n.stored.lookup fp = none) es s e chunk s') :
    StoreSim p n out es (pre ++ [(e, chunk)]) s' := by
  obtain ⟨hmiss, hfresh, hup, hq, hinv⟩ := hstored
  rw [h.length] at hfresh
  have hnone : (naiveChunks p n (pre.map Prod.snd)).stored.lookup
      (p.crypto.generateHash chunk) = none := by
    rw [← hhash, h.frame _ hfresh]
    exact hmiss
  have hnext := naiveChunks_concat p n pre (e, chunk)
  rw [naiveChunk_store hnone] at hnext
  have hmem : e.chunkHash ∈
      (es.map InQueryEntry.chunkHash).take (pre ++ [(e, chunk)]).length := by
    rw [List.length_append, List.length_singleton, List.mem_take_iff_getElem]
    have hlt := (List.getElem?_eq_some_iff.mp he).1
    refine ⟨pre.length, by simp; omega, ?_⟩
    rw [List.getElem_map, (List.getElem?_eq_some_iff.mp he).2]
  refine ⟨by simp [hlen, h.length], ?_, ?_, ?_, ?_⟩
  · rw [hnext, hup, h.upload, hhash, hsize]
  · rw [hnext, ← h.upload]
    apply hinv _ (inMap_insert hnone _)
    rw [InMap, hhash, AList.lookup_insert]
  · intro fp hfp
    have hne : fp ≠ p.crypto.generateHash chunk := by
      rintro rfl
      exact hfp (hhash ▸ hmem)
    rw [hnext]
    dsimp only
    rw [AList.lookup_insert_ne hne]
    exact h.frame_concat hfp
  · rw [hnext, hq, hhash]
    exact h.covers.insert (p.crypto.length_generateHash chunk) _ _

/-- One round of the store loop is one step of the specification. -/
theorem StoreSim.step (h : StoreSim p n out es pre s) (he : es[pre.length]? = some e)
    (hhash : e.chunkHash = p.crypto.generateHash chunk) (hsize : e.chunkSize = chunk.length) :
    ∃ s', storeStep p s (e, chunk) = .ok s' ∧ StoreSim p n out es (pre ++ [(e, chunk)]) s' := by
  obtain ⟨s', hrun, hlen, hreused | hstored⟩ := h.inv.step (h.length ▸ he) chunk
  · exact ⟨s', hrun, h.reused hhash hsize hlen hreused⟩
  · exact ⟨s', hrun, h.storedNew he hhash hsize hlen hstored⟩

end Round

/-- The store loop follows the specification over the whole batch. -/
theorem storeLoop_sim {p : Params} {idx : FreqIndex} {out : OutIndex} {n : Naive}
    (hrel : FreqRel p idx out n.stored) {chunks : List Bytes} {es : List InQueryEntry}
    (hhashes : es.map InQueryEntry.chunkHash = chunks.map p.crypto.generateHash)
    (hsizes : es.map InQueryEntry.chunkSize = chunks.map List.length)
    (hflagged : Flagged (InMap n.stored) es) :
    ∃ s, storeLoop p idx (ocallQueryOutIndex out (outQueries p es)) es chunks n.upload = .ok s ∧
      StoreSim p n out es (es.zip chunks) s := by
  have hlen : es.length = chunks.length := by simpa using congrArg List.length hhashes
  have hhashed : ∀ e ∈ es, e.chunkHash.length = chunkHashSize := by
    intro e he
    have hmem : e.chunkHash ∈ chunks.map p.crypto.generateHash :=
      hhashes ▸ List.mem_map_of_mem he
    obtain ⟨c, _, hc⟩ := List.mem_map.mp hmem
    rw [← hc, p.crypto.length_generateHash]
  apply Loops.foldlM_ok
  · refine ⟨rfl, rfl, ⟨hhashed, hflagged, Nat.zero_le _, by simp, ?_, by simp⟩, fun _ _ => rfl,
      hrel.covers⟩
    exact hrel.outside.answered hrel.covers hhashed
  · rintro pre ⟨e, chunk⟩ rest s hcut hs
    have hget : (es.zip chunks)[pre.length]? = some (e, chunk) := by simp [hcut]
    obtain ⟨he, hc⟩ := List.getElem?_zip_eq_some.mp hget
    have hh := congrArg (·[pre.length]?) hhashes
    have hz := congrArg (·[pre.length]?) hsizes
    simp only [List.getElem?_map, he, hc, Option.map_some, Option.some.injEq] at hh hz
    exact hs.step he hh hz

/-- What the passes of a batch made of the index: the sketch has counted the entries,
and the heap was brought up to date with what the lookup section left. -/
structure BatchPasses (rowPos : Bytes → Nat → Nat) (p : Params) (idx : FreqIndex)
    (es : List InQueryEntry) (looked : LookupState) (idx' : FreqIndex) : Prop where
  sketch : idx'.cmSketch = (sketchSectionAt rowPos idx.cmSketch es).1
  lookup : lookupSection p idx.insideDedupIndex (sketchSectionAt rowPos idx.cmSketch es).2 =
    .ok looked
  heap : ∃ done, updateHeapSection p idx.insideDedupIndex done = .ok idx'.insideDedupIndex ∧
    done.map InQueryEntry.unaddressed = looked.done.map InQueryEntry.unaddressed

/-- A batch takes no exit, ends in the specification's upload state, and leaves
indexes that stand for the specification's map, whatever the row positions are. -/
theorem processOneBatchAt_refines {p : Params} {idx : FreqIndex} {out : OutIndex} {n : Naive}
    (rowPos : Bytes → Nat → Nat) (hrel : FreqRel p idx out n.stored) (msg : UploadMsg) :
    ∃ idx' out' looked,
      processOneBatchAt rowPos p idx out msg n.upload = .ok ((idx', out',
        (naiveChunks p n (recvChunks p n.upload.client.sessionKey msg)).upload), looked) ∧
      FreqRel p idx' out'
        (naiveChunks p n (recvChunks p n.upload.client.sessionKey msg)).stored ∧
      BatchPasses rowPos p idx
        ((recvChunks p n.upload.client.sessionKey msg).map (hashEntry p)) looked idx' := by
  let chunks := recvChunks p n.upload.client.sessionKey msg
  let counted := sketchSectionAt rowPos idx.cmSketch (chunks.map (hashEntry p))
  obtain ⟨hch, hcs⟩ := sketchSectionAt_fields rowPos idx.cmSketch (chunks.map (hashEntry p))
  have hchash : counted.2.map InQueryEntry.chunkHash = chunks.map p.crypto.generateHash := by
    rw [hch, List.map_map]
    rfl
  have hcsize : counted.2.map InQueryEntry.chunkSize = chunks.map List.length := by
    rw [hcs, List.map_map]
    rfl
  have hsmall : counted.2.length < 2 ^ 32 := by
    have hlen : counted.2.length = chunks.length := by
      simpa using congrArg List.length hchash
    rw [hlen]
    simp only [chunks, recvChunks, length_readRecords]
    exact msg.currentItemNum.toNat_lt
  obtain ⟨looked, hlook, hinv⟩ := lookupSection_spec hrel.heap hsmall
  have hquery : (if looked.outQuery ≠ [] then ocallQueryOutIndex out looked.outQuery
      else looked.outQuery) = ocallQueryOutIndex out (outQueries p looked.done) := by
    rw [ocallQueryOutIndex_sent, hinv.query]
  obtain ⟨stored, hstore, hsim⟩ := storeLoop_sim hrel (hinv.hashes.trans hchash)
    (hinv.sizes.trans hcsize) hinv.flagged
  have hlen : looked.done.length = chunks.length := by
    simpa using congrArg List.length (hinv.hashes.trans hchash)
  have hzip : (looked.done.zip chunks).map Prod.snd = chunks := List.map_snd_zip hlen.ge
  have hend : stored.done.length = looked.done.length := by
    rw [hsim.length, List.length_zip, hlen, min_self]
  obtain ⟨hdrained, hresolved⟩ := hsim.inv.finish hend
  have hinv' := hsim.inv
  have hcov := hsim.covers
  rw [hzip] at hinv' hcov hresolved
  -- the map only grew, so the heap is still good
  have hgrow : ∀ fp a, InMap n.stored fp a → InMap (naiveChunks p n chunks).stored fp a :=
    naiveChunks_stored_mono p n chunks
  obtain ⟨heap', hheap, hgood⟩ := updateHeapSection_spec (hrel.heap.mono hgrow) hresolved
  have hout : (if stored.outQueryBase ≠ [] then ocallUpdateOutIndex out stored.outQueryBase
      else out) = ocallUpdateOutIndex out stored.outDone := by
    rw [ocallUpdateOutIndex_sent, StoreState.outQueryBase, hdrained, List.append_nil]
  have hupload : stored.upload = (naiveChunks p n chunks).upload := by
    rw [hsim.upload, hzip]
  refine ⟨{ cmSketch := counted.1
            insideDedupIndex := heap'
            insideDedupChunkNum := stored.insideDedupChunkNum
            insideDedupDataSize := stored.insideDedupDataSize },
    ocallUpdateOutIndex out stored.outDone, looked, ?_, ⟨hgood, ?_, hcov⟩,
    rfl, hlook, stored.done, hheap, storeLoop_unaddressed hstore hlen⟩
  · have hlook' : lookupSection p idx.insideDedupIndex
        (sketchSectionAt rowPos idx.cmSketch ((recvChunks p n.upload.client.sessionKey msg).map
          (hashEntry p))).2 = .ok looked := hlook
    simp only [processOneBatchAt, hlook', bind, Except.bind, hquery, pure, Except.pure]
    rw [hstore]
    dsimp only
    rw [hheap]
    dsimp only
    rw [hout, hupload]
  · exact (hrel.outside.mono hgrow).update hinv'.sent

/-- **The batched `ProcessOneBatch` refines the specification.**  It takes no
exit, ends in the specification's upload state, and leaves indexes that stand
for the specification's map. -/
theorem processOneBatch_refines {p : Params} {idx : FreqIndex} {out : OutIndex} {n : Naive}
    (hrel : FreqRel p idx out n.stored) (msg : UploadMsg) :
    ∃ idx' out',
      processOneBatch p idx out msg n.upload = .ok (idx', out',
        (naiveChunks p n (recvChunks p n.upload.client.sessionKey msg)).upload) ∧
      FreqRel p idx' out'
        (naiveChunks p n (recvChunks p n.upload.client.sessionKey msg)).stored := by
  obtain ⟨idx', out', looked, hrun, hrel', -⟩ :=
    processOneBatchAt_refines idx.cmSketch.pos hrel msg
  refine ⟨idx', out', ?_, hrel'⟩
  rw [processOneBatch_eq_at, hrun]
  rfl

end Debe
