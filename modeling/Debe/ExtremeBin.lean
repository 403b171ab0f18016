import Debe.Segments

/-!
# Extreme binning

`EcallExtremeBinIndex` keeps, for the least hash of a segment, the hash of that segment
and the ID of a bin in the index store.  A segment whose least hash is new gets a bin of
its own.  A segment with a known least hash is compared with the bin; when it has the hash
noted beside the bin, all of its chunks are taken to be there.

`ExtremeInv` is what makes that right: each bin that the primary index names is in the
store, its addresses are those of saved chunks, and it has every chunk of the segment whose
hash is noted.
-/

namespace Debe

/-- `PrimaryValue_t`. -/
structure PrimaryValue where
  segmentHash : ChunkHash
  binID : SegmentID
  deriving DecidableEq, Repr

def PrimaryValue.toBytes (v : PrimaryValue) : Bytes := v.segmentHash.1 ++ v.binID.1

def PrimaryValue.ofBytes (bs : Bytes) : PrimaryValue where
  segmentHash := ChunkHash.ofBytes bs
  binID := SegmentID.ofBytes (bs.drop chunkHashSize)

theorem PrimaryValue.ofBytes_toBytes (v : PrimaryValue) : PrimaryValue.ofBytes v.toBytes = v := by
  have hdrop : (v.segmentHash.1 ++ v.binID.1).drop chunkHashSize = v.binID.1 :=
    List.drop_left' v.segmentHash.2
  simp only [ofBytes, toBytes, ChunkHash.ofBytes_append, hdrop, SegmentID.ofBytes_val]

/-- The index object with its store of bins.  `draws` counts the bin IDs drawn so far. -/
structure ExtremeIndex where
  primaryIndex : PrimaryIndex
  store : OutIndex
  draws : Nat

/-- The loop over a segment with the hash noted beside the bin. -/
def recordKnown (p : Params) (tmpDedupIndex : DedupIndex) (u : Upload) (m : SegmentMeta) :
    Except Fault Upload :=
  match tmpDedupIndex.lookup m.chunkHash with
  | some address => .ok (updateFileRecipe p m.chunkHash.1 address u)
  | none => ocallSGXExitError
      "EcallExtremeBinIndex: cannot find the chunk address of tmp deduplication index."

/-- `EcallExtremeBinIndex::ProcessOneSegment`. -/
def ExtremeIndex.processOneSegment (p : SegmentParams) (segment : Segment) (idx : ExtremeIndex)
    (u : Upload) : Except Fault (ExtremeIndex × Upload) :=
  let tmpSegmentHash := segmentHash p.toParams segment
  match idx.primaryIndex.lookup segment.minHash.1 with
  | some primaryValueStr =>
      let primaryValue := PrimaryValue.ofBytes primaryValueStr
      match fetchBin p idx.store primaryValue.binID.1 ∅ with
      | none => ocallSGXExitError "EcallExtremeBinIndex: cannot find the bin."
      | some tmpDedupIndex =>
          if tmpSegmentHash ≠ primaryValue.segmentHash then do
            let s ← segment.metadata.foldlM (dedupStep p.toParams segment.buffer)
              { tmpDedupIndex := tmpDedupIndex, offset := 0, upload := u }
            let store := updateBinStore p idx.store primaryValue.binID.1 s.tmpDedupIndex
            return ({ idx with store := store }, s.upload)
          else do
            let u ← segment.metadata.foldlM (recordKnown p.toParams tmpDedupIndex) u
            return (idx, u)
  | none => do
      let s ← segment.metadata.foldlM (dedupStep p.toParams segment.buffer)
        { tmpDedupIndex := ∅, offset := 0, upload := u }
      let binID := p.segmentID idx.draws
      let primaryValue : PrimaryValue := { segmentHash := tmpSegmentHash, binID := binID }
      return ({
        primaryIndex := insertNew idx.primaryIndex segment.minHash.1 primaryValue.toBytes
        store := updateBinStore p idx.store binID.1 s.tmpDedupIndex
        draws := idx.draws + 1 }, s.upload)

/-! ## Bins -/

variable {p : SegmentParams} {store store' store'' : OutIndex}

/-- Every bin keeps its keys and their addresses. -/
def BinsGrow (p : SegmentParams) (store store' : OutIndex) : Prop :=
  ∀ id bin, fetchBin p store id ∅ = some bin →
    ∃ bin', fetchBin p store' id ∅ = some bin' ∧
      ∀ k a, bin.lookup k = some a → bin'.lookup k = some a

theorem BinsGrow.refl (p : SegmentParams) (store : OutIndex) : BinsGrow p store store :=
  fun _ bin h => ⟨bin, h, fun _ _ => id⟩

theorem BinsGrow.trans (h : BinsGrow p store store') (h' : BinsGrow p store' store'') :
    BinsGrow p store store'' := by
  intro id bin hbin
  obtain ⟨bin', hbin', hkeep⟩ := h id bin hbin
  obtain ⟨bin'', hbin'', hkeep'⟩ := h' id bin' hbin'
  exact ⟨bin'', hbin'', fun k a hk => hkeep' k a (hkeep k a hk)⟩

/-- A bin is written back with more, or one is added. -/
theorem binsGrow_update {id : Bytes} {m : DedupIndex}
    (h : ∀ bin, fetchBin p store id ∅ = some bin →
      ∀ k a, bin.lookup k = some a → m.lookup k = some a) :
    BinsGrow p store (updateBinStore p store id m) := by
  intro id' bin hbin
  by_cases hid : id' = id
  · subst hid
    obtain ⟨m', hm', hlookup⟩ := fetchBin_update p store id' m
    refine ⟨m', hm', fun k a hk => ?_⟩
    rw [hlookup]
    exact h bin hbin k a hk
  · exact ⟨bin, (fetchBin_update_ne hid m ∅).trans hbin, fun _ _ hk => hk⟩

/-- Only what is in the store can be fetched. -/
theorem mem_of_fetchBin {id : Bytes} {m bin : DedupIndex}
    (h : fetchBin p store id m = some bin) : id ∈ store := by
  rw [← AList.lookup_isSome]
  unfold fetchBin readBinValues at h
  cases hl : store.lookup id with
  | none =>
      rw [hl] at h
      cases h
  | some value => rfl

theorem mem_updateBinStore {id : Bytes} {m : DedupIndex} {key : Bytes} :
    key ∈ updateBinStore p store id m ↔ key = id ∨ key ∈ store :=
  AList.mem_insert _

/-! ## The invariant -/

/-- The bin of an entry of the primary index: it is in the store, its addresses are those of
saved chunks, and it has the chunks of a segment with the noted hash. -/
structure BinOf (p : SegmentParams) (segs : List Segment) (store : OutIndex) (u : Upload)
    (v : PrimaryValue) (bin : DedupIndex) : Prop where
  fetched : fetchBin p store v.binID.1 ∅ = some bin
  saved : SavedIn u bin
  noted : ∃ segment ∈ segs, segmentHash p.toParams segment = v.segmentHash ∧
    ∀ m ∈ segment.metadata, ∃ a, bin.lookup m.chunkHash = some a

/-- What holds between two segments when at most `n` IDs are drawn. -/
structure ExtremeInv (p : SegmentParams) (n : Nat) (segs : List Segment) (idx : ExtremeIndex)
    (u : Upload) : Prop where
  bins : ∀ minHash value, idx.primaryIndex.lookup minHash = some value →
    ∃ v bin, value = PrimaryValue.toBytes v ∧ BinOf p segs idx.store u v bin
  draws : idx.draws ≤ segs.length
  fresh : ∀ i, idx.draws ≤ i → i < n → (p.segmentID i).1 ∉ idx.store

/-- With more segments and a longer log. -/
theorem BinOf.mono {segs segs' : List Segment} {u u' : Upload} {v : PrimaryValue}
    {bin : DedupIndex} (h : BinOf p segs store u v bin) (hsegs : segs ⊆ segs')
    (hsaved : u.disk.saved <+: u'.disk.saved) : BinOf p segs' store u' v bin where
  fetched := h.fetched
  saved := fun k a hk => hsaved.subset (h.saved k a hk)
  noted := by
    obtain ⟨segment, hseg, hnoted⟩ := h.noted
    exact ⟨segment, hsegs hseg, hnoted⟩

/-- With more segments, a longer log and one bin written back with more or added. -/
theorem BinOf.update {segs segs' : List Segment} {u u' : Upload} {v : PrimaryValue}
    {bin m : DedupIndex} (h : BinOf p segs store u v bin) (hsegs : segs ⊆ segs')
    (hsaved : u.disk.saved <+: u'.disk.saved) {binID : Bytes}
    (hmore : ∀ bin, fetchBin p store binID ∅ = some bin →
      ∀ k a, bin.lookup k = some a → m.lookup k = some a) (hm : SavedIn u' m) :
    ∃ bin', BinOf p segs' (updateBinStore p store binID m) u' v bin' := by
  obtain ⟨bin', hfetched, hkeep⟩ := binsGrow_update hmore v.binID.1 bin h.fetched
  obtain ⟨segment, hseg, hhash, hknown⟩ := h.noted
  refine ⟨bin', hfetched, fun k a hk => ?_, segment, hsegs hseg, hhash, fun m hm => ?_⟩
  · by_cases hid : v.binID.1 = binID
    · obtain ⟨m', hm', hlookup⟩ := fetchBin_update p store binID m
      obtain rfl : m' = bin' := Option.some.inj (hm'.symm.trans (hid ▸ hfetched))
      exact hm k a (hlookup k ▸ hk)
    · rw [fetchBin_update_ne hid, h.fetched] at hfetched
      obtain rfl : bin = bin' := Option.some.inj hfetched
      exact hsaved.subset (h.saved k a hk)
  · obtain ⟨a, ha⟩ := hknown m hm
    exact ⟨a, hkeep _ _ ha⟩

/-- The recorded chunks of a segment are in the map at the end. -/
theorem metadata_known {p : Params} {segment : Segment} {chunks : List Chunk}
    (hseg : segment.Holds p chunks) {m : DedupIndex} {log : List BinValue}
    (hfps : log.map BinValue.chunkFp = chunks.map fun c => p.fingerprint c.1)
    (hfound : ∀ e ∈ log, m.lookup e.chunkFp = some e.address) :
    ∀ d ∈ segment.metadata, ∃ a, m.lookup d.chunkHash = some a := by
  intro d hd
  rw [hseg.metadata] at hd
  obtain ⟨c, hc, rfl⟩ := List.mem_map.mp hd
  have hmem : p.fingerprint c.1 ∈ log.map BinValue.chunkFp :=
    hfps ▸ List.mem_map_of_mem hc
  obtain ⟨e, he, hfp⟩ := List.mem_map.mp hmem
  have hlookup := hfound e he
  rw [hfp] at hlookup
  exact ⟨e.address, hlookup⟩

/-- The loop over a segment all of whose chunks are in the bin. -/
theorem recordKnown_spec {p : Params} {s : DedupState} {chunks : List Chunk}
    (hknown : ∀ c ∈ chunks, ∃ a, s.tmpDedupIndex.lookup (p.fingerprint c.1) = some a) :
    ∃ log u, (chunks.map fun c => chunkMeta p c.1).foldlM (recordKnown p s.tmpDedupIndex) s.upload =
        .ok u ∧
      log.map BinValue.chunkFp = (chunks.map fun c => p.fingerprint c.1) ∧
      Deduped p s log { s with upload := u } := by
  induction chunks generalizing s with
  | nil => exact ⟨[], s.upload, rfl, rfl, .refl s⟩
  | cons c chunks ih =>
      obtain ⟨a, ha⟩ := hknown c List.mem_cons_self
      have hstep : recordKnown p s.tmpDedupIndex s.upload (chunkMeta p c.1) =
          .ok (updateFileRecipe p (p.fingerprint c.1).1 a s.upload) := by
        simp only [recordKnown, chunkMeta, ha]
      obtain ⟨log, u, hrun, hfps, hdedup⟩ :=
        ih (s := { s with upload := updateFileRecipe p (p.fingerprint c.1).1 a s.upload })
          fun d hd => hknown d (List.mem_cons_of_mem _ hd)
      refine ⟨⟨p.fingerprint c.1, a⟩ :: log, u, ?_, ?_, (Deduped.known ha s.offset).trans hdedup⟩
      · rw [List.map_cons, Loops.foldlM_cons_ok hstep]
        exact hrun
      · rw [List.map_cons, hfps, List.map_cons]

/-- What processing a segment comes to. -/
structure ExtremeDone (p : SegmentParams) (n : Nat) (segs : List Segment) (idx : ExtremeIndex)
    (u : Upload) (chunks : List Chunk) (idx' : ExtremeIndex) (u' : Upload) : Prop where
  inv : ExtremeInv p n segs idx' u'
  recorded : Recorded p.toParams u chunks u'
  bins : BinsGrow p idx.store idx'.store

variable {n : Nat} {segs : List Segment} {idx : ExtremeIndex} {u : Upload} {segment : Segment}
variable {chunks : List Chunk}

/-- The bin of a value of the primary index. -/
theorem ExtremeInv.binOf (h : ExtremeInv p n segs idx u) {minHash : Bytes} {v : PrimaryValue}
    (hprimary : idx.primaryIndex.lookup minHash = some v.toBytes) :
    ∃ bin, BinOf p segs idx.store u v bin := by
  obtain ⟨v', bin, hvalue, hbin⟩ := h.bins _ _ hprimary
  obtain rfl : v = v' := by
    rw [← v.ofBytes_toBytes, hvalue, v'.ofBytes_toBytes]
  exact ⟨bin, hbin⟩

/-- A segment with a known least hash and another hash than the noted one. -/
theorem ExtremeInv.different (h : ExtremeInv p n segs idx u)
    (hseg : segment.Holds p.toParams chunks) {v : PrimaryValue}
    (hprimary : idx.primaryIndex.lookup segment.minHash.1 = some v.toBytes)
    (hhash : segmentHash p.toParams segment ≠ v.segmentHash) :
    ∃ r, idx.processOneSegment p segment u = .ok r ∧
      ExtremeDone p n (segs ++ [segment]) idx u chunks r.1 r.2 := by
  obtain ⟨bin, hbin⟩ := h.binOf hprimary
  obtain ⟨log, s, hrun, hdedup, hfps⟩ := dedupLoop_spec (p := p.toParams)
    (s := { tmpDedupIndex := bin, offset := 0, upload := u }) hseg rfl
  have hmore : ∀ bin', fetchBin p idx.store v.binID.1 ∅ = some bin' →
      ∀ k a, bin'.lookup k = some a → s.tmpDedupIndex.lookup k = some a := by
    intro bin' hbin' k a hk
    obtain rfl : bin = bin' := Option.some.inj (hbin.fetched.symm.trans hbin')
    exact hdedup.grows k a hk
  refine ⟨({ idx with store := updateBinStore p idx.store v.binID.1 s.tmpDedupIndex }, s.upload),
    ?_, ⟨fun minHash value hlookup => ?_, ?_, fun i hi hin hmem => ?_⟩, ?_, binsGrow_update hmore⟩
  · simp only [ExtremeIndex.processOneSegment, hprimary, v.ofBytes_toBytes, hbin.fetched, ne_eq,
      hhash, not_false_eq_true, if_true, hrun, bind, Except.bind, pure, Except.pure]
  · obtain ⟨w, binw, hw, hbinw⟩ := h.bins minHash value hlookup
    obtain ⟨binw', hbinw'⟩ := hbinw.update (List.subset_append_left segs [segment])
      hdedup.prefix_saved hmore (hdedup.saved hbin.saved)
    exact ⟨w, binw', hw, hbinw'⟩
  · exact h.draws.trans (List.length_append ▸ Nat.le_add_right _ _)
  · rcases mem_updateBinStore.mp hmem with hid | hold
    · exact h.fresh i hi hin (hid ▸ mem_of_fetchBin hbin.fetched)
    · exact h.fresh i hi hin hold
  · exact hdedup.recorded hbin.saved hfps

/-- A segment with a known least hash and the noted hash. -/
theorem ExtremeInv.same (h : ExtremeInv p n segs idx u) (hseg : segment.Holds p.toParams chunks)
    (hinj : ∀ t ∈ segs, segmentHash p.toParams t = segmentHash p.toParams segment →
      t.metadataBytes = segment.metadataBytes) {v : PrimaryValue}
    (hprimary : idx.primaryIndex.lookup segment.minHash.1 = some v.toBytes)
    (hhash : segmentHash p.toParams segment = v.segmentHash) :
    ∃ r, idx.processOneSegment p segment u = .ok r ∧
      ExtremeDone p n (segs ++ [segment]) idx u chunks r.1 r.2 := by
  obtain ⟨bin, hbin⟩ := h.binOf hprimary
  -- the noted hash is that of a segment with the same metadata
  obtain ⟨t, ht, hthash, hknown⟩ := hbin.noted
  have hmeta : t.metadata = segment.metadata :=
    Segment.metadata_eq (hinj t ht (hthash.trans hhash.symm))
  have hchunks : ∀ c ∈ chunks, ∃ a, bin.lookup (p.fingerprint c.1) = some a := fun c hc =>
    hknown (chunkMeta p.toParams c.1) (hmeta ▸ hseg.metadata ▸ List.mem_map_of_mem hc)
  obtain ⟨log, u', hrun, hfps, hdedup⟩ := recordKnown_spec (p := p.toParams)
    (s := { tmpDedupIndex := bin, offset := 0, upload := u }) hchunks
  rw [← hseg.metadata] at hrun
  refine ⟨(idx, u'), ?_, ⟨fun minHash value hlookup => ?_, ?_, h.fresh⟩, ?_, .refl p _⟩
  · simp only [ExtremeIndex.processOneSegment, hprimary, v.ofBytes_toBytes, hbin.fetched, ne_eq,
      hhash, not_true_eq_false, if_false, hrun, bind, Except.bind, pure, Except.pure]
  · obtain ⟨w, binw, hw, hbinw⟩ := h.bins minHash value hlookup
    exact ⟨w, binw, hw, hbinw.mono (List.subset_append_left segs [segment]) hdedup.prefix_saved⟩
  · exact h.draws.trans (List.length_append ▸ Nat.le_add_right _ _)
  · exact hdedup.recorded hbin.saved hfps

/-- A segment with a new least hash. -/
theorem ExtremeInv.new (h : ExtremeInv p n segs idx u) (hseg : segment.Holds p.toParams chunks)
    (hn : segs.length < n) (hinj : ∀ i < n, ∀ j < n, p.segmentID i = p.segmentID j → i = j)
    (hprimary : idx.primaryIndex.lookup segment.minHash.1 = none) :
    ∃ r, idx.processOneSegment p segment u = .ok r ∧
      ExtremeDone p n (segs ++ [segment]) idx u chunks r.1 r.2 := by
  have hempty : SavedIn u ∅ := by
    intro k a hk
    rw [AList.lookup_empty] at hk
    cases hk
  obtain ⟨log, s, hrun, hdedup, hfps⟩ := dedupLoop_spec (p := p.toParams)
    (s := { tmpDedupIndex := ∅, offset := 0, upload := u }) hseg rfl
  have hdraw : idx.draws < n := h.draws.trans_lt hn
  have hmore : ∀ bin, fetchBin p idx.store (p.segmentID idx.draws).1 ∅ = some bin →
      ∀ k a, bin.lookup k = some a → s.tmpDedupIndex.lookup k = some a := fun bin hbin =>
    absurd (mem_of_fetchBin hbin) (h.fresh _ le_rfl hdraw)
  have hold : ∀ v bin, BinOf p segs idx.store u v bin →
      ∃ bin', BinOf p (segs ++ [segment]) (updateBinStore p idx.store (p.segmentID idx.draws).1
        s.tmpDedupIndex) s.upload v bin' := fun v bin hbin =>
    hbin.update (List.subset_append_left segs [segment]) hdedup.prefix_saved hmore
      (hdedup.saved hempty)
  let v : PrimaryValue :=
    { segmentHash := segmentHash p.toParams segment, binID := p.segmentID idx.draws }
  refine ⟨({
    primaryIndex := insertNew idx.primaryIndex segment.minHash.1 v.toBytes
    store := updateBinStore p idx.store (p.segmentID idx.draws).1 s.tmpDedupIndex
    draws := idx.draws + 1 }, s.upload), ?_,
    ⟨fun minHash value hlookup => ?_, ?_, fun i hi hin hmem => ?_⟩, ?_, binsGrow_update hmore⟩
  · simp only [ExtremeIndex.processOneSegment, hprimary, hrun, bind, Except.bind, pure, Except.pure,
      v]
  · have hnot : segment.minHash.1 ∉ idx.primaryIndex := AList.lookup_eq_none.mp hprimary
    rw [insertNew, if_neg hnot] at hlookup
    by_cases hkey : minHash = segment.minHash.1
    · subst hkey
      rw [AList.lookup_insert] at hlookup
      obtain ⟨bin, hbin, hlook⟩ := fetchBin_update p idx.store (p.segmentID idx.draws).1
        s.tmpDedupIndex
      refine ⟨v, bin, (Option.some.inj hlookup).symm, hbin, fun k a hk => ?_, segment,
        List.mem_append_right _ (List.mem_singleton_self _), rfl, fun m hm => ?_⟩
      · exact hdedup.saved hempty k a (hlook k ▸ hk)
      · rw [hlook]
        exact metadata_known hseg hfps hdedup.found m hm
    · rw [AList.lookup_insert_ne hkey] at hlookup
      obtain ⟨w, binw, hw, hbinw⟩ := h.bins minHash value hlookup
      obtain ⟨binw', hbinw'⟩ := hold w binw hbinw
      exact ⟨w, binw', hw, hbinw'⟩
  · rw [List.length_append]
    exact Nat.succ_le_succ h.draws
  · rcases mem_updateBinStore.mp hmem with hid | hmem
    · have heq := hinj i hin _ hdraw (Subtype.ext hid)
      exact absurd heq (Nat.ne_of_gt hi)
    · exact h.fresh i (Nat.le_of_succ_le hi) hin hmem
  · exact hdedup.recorded hempty hfps

/-- The hash is injective on these segments. -/
def HashInj (p : Params) (segs : List Segment) : Prop :=
  ∀ s ∈ segs, ∀ t ∈ segs, segmentHash p s = segmentHash p t → s.metadataBytes = t.metadataBytes

/-- **One segment.**  No exit is taken, and the invariant is kept. -/
theorem ExtremeInv.processOneSegment (h : ExtremeInv p n segs idx u)
    (hseg : segment.Holds p.toParams chunks) (hn : segs.length < n)
    (hids : ∀ i < n, ∀ j < n, p.segmentID i = p.segmentID j → i = j)
    (hhash : HashInj p.toParams (segs ++ [segment])) :
    ∃ r, idx.processOneSegment p segment u = .ok r ∧
      ExtremeDone p n (segs ++ [segment]) idx u chunks r.1 r.2 := by
  cases hprimary : idx.primaryIndex.lookup segment.minHash.1 with
  | none => exact h.new hseg hn hids hprimary
  | some value =>
      obtain ⟨v, bin, rfl, -⟩ := h.bins _ _ hprimary
      by_cases hnoted : segmentHash p.toParams segment = v.segmentHash
      · refine h.same hseg (fun t ht => ?_) hprimary hnoted
        exact hhash t (List.mem_append_left _ ht) segment
          (List.mem_append_right _ (List.mem_singleton_self _))
      · exact h.different hseg hprimary hnoted

/-! ## Runs of a server -/

/-- A server with extreme binning, and the upload of the client that is served. -/
structure ExtremeServer where
  index : ExtremeIndex
  upload : Upload

/-- A new start with a store that may hold other things. -/
def ExtremeServer.init (store : OutIndex) (u : Upload) : ExtremeServer where
  index := { primaryIndex := ∅, store := store, draws := 0 }
  upload := u

/-- One event. -/
def ExtremeServer.step (p : SegmentParams) (s : ExtremeServer) :
    SegmentEvent → Except Fault ExtremeServer
  | .segment segment => do
      let r ← s.index.processOneSegment p segment s.upload
      return { index := r.1, upload := r.2 }
  | .other u => .ok { s with upload := s.upload.between u }

/-- Each bin ID of the primary index is in the store, with all chunks of the processed segments
that have the hash recorded beside it. -/
def Covered (p : SegmentParams) (segs : List Segment) (s : ExtremeServer) : Prop :=
  ∀ minHash value, s.index.primaryIndex.lookup minHash = some value →
    ∃ bin, fetchBin p s.index.store (PrimaryValue.ofBytes value).binID.1 ∅ = some bin ∧
      SavedIn s.upload bin ∧
      (∃ segment ∈ segs,
        segmentHash p.toParams segment = (PrimaryValue.ofBytes value).segmentHash) ∧
      ∀ segment ∈ segs,
        segmentHash p.toParams segment = (PrimaryValue.ofBytes value).segmentHash →
        ∀ m ∈ segment.metadata, m.chunkHash ∈ bin

theorem ExtremeInv.covered {s : ExtremeServer} (h : ExtremeInv p n segs s.index s.upload)
    (hhash : HashInj p.toParams segs) : Covered p segs s := by
  intro minHash value hlookup
  obtain ⟨v, bin, rfl, hbin⟩ := h.bins minHash value hlookup
  obtain ⟨t, ht, hthash, hknown⟩ := hbin.noted
  rw [v.ofBytes_toBytes]
  refine ⟨bin, hbin.fetched, hbin.saved, ⟨t, ht, hthash⟩, fun segment hseg hsame m hm => ?_⟩
  have hmeta : segment.metadata = t.metadata :=
    Segment.metadata_eq (hhash segment hseg t ht (hsame.trans hthash.symm))
  obtain ⟨a, ha⟩ := hknown m (hmeta ▸ hm)
  exact AList.lookup_isSome.mp (Option.isSome_iff_exists.mpr ⟨a, ha⟩)

theorem extremeInv_init {u : Upload} (hfresh : ∀ i < n, (p.segmentID i).1 ∉ store) :
    ExtremeInv p n [] (ExtremeServer.init store u).index u where
  bins := by
    intro minHash value hlookup
    rw [ExtremeServer.init, AList.lookup_empty] at hlookup
    cases hlookup
  draws := le_rfl
  fresh := fun i _ hin => hfresh i hin

/-- Nothing that happens between segments matters. -/
theorem ExtremeInv.between (h : ExtremeInv p n segs idx u) (u' : Upload) :
    ExtremeInv p n segs idx (u.between u') where
  bins := by
    intro minHash value hlookup
    obtain ⟨v, bin, hvalue, hbin⟩ := h.bins minHash value hlookup
    exact ⟨v, bin, hvalue, hbin.mono (List.Subset.refl _) (List.prefix_refl _)⟩
  draws := h.draws
  fresh := h.fresh

/-- A run from any state between two segments. -/
theorem ExtremeInv.run {s : ExtremeServer} {events : List SegmentEvent}
    (h : ExtremeInv p n segs s.index s.upload)
    (hholds : ∀ segment ∈ segmentsOf events, ∃ chunks, segment.Holds p.toParams chunks)
    (hn : segs.length + (segmentsOf events).length ≤ n)
    (hids : ∀ i < n, ∀ j < n, p.segmentID i = p.segmentID j → i = j)
    (hhash : HashInj p.toParams (segs ++ segmentsOf events)) :
    ∃ s', events.foldlM (ExtremeServer.step p) s = .ok s' ∧
      ExtremeInv p n (segs ++ segmentsOf events) s'.index s'.upload ∧
      BinsGrow p s.index.store s'.index.store := by
  refine run_segments (P := fun seen (s' : ExtremeServer) =>
    ExtremeInv p n (segs ++ seen) s'.index s'.upload ∧
    BinsGrow p s.index.store s'.index.store) ⟨by rwa [List.append_nil], .refl p _⟩ ?_ ?_
  · rintro seen u s₁ ⟨hinv, hgrow⟩
    exact ⟨{ s₁ with upload := s₁.upload.between u }, rfl, hinv.between u, hgrow⟩
  · rintro seen segment rest s₁ hsplit ⟨hinv, hgrow⟩
    rw [hsplit] at hholds hn hhash
    rw [List.length_append, List.length_cons] at hn
    have hbegins : segs ++ seen ++ [segment] <+: segs ++ (seen ++ segment :: rest) :=
      ⟨rest, by simp only [List.append_assoc, List.singleton_append]⟩
    obtain ⟨chunks, hseg⟩ := hholds segment (by simp)
    obtain ⟨r, hstep, hdone⟩ := hinv.processOneSegment hseg
      (by rw [List.length_append]; omega) hids
      fun a ha b hb => hhash a (hbegins.subset ha) b (hbegins.subset hb)
    rw [← List.append_assoc]
    exact ⟨_, Loops.bind_eq_ok.mpr ⟨r, hstep, rfl⟩, hdone.inv, hgrow.trans hdone.bins⟩

/-- **Extreme binning is correct.**  In a server run from empty, whatever the segments and the
order in which maps are iterated, no exit is taken.  A segment gives, chunk by chunk, the
address of a saved chunk with the same fingerprint; bins only grow; and each bin that the
primary index names is in the store with all chunks of the segment whose hash is noted. -/
theorem extreme_binning_correct (p : SegmentParams) (store : OutIndex) (u : Upload)
    (pre post : List SegmentEvent) {segment : Segment} {chunks : List Chunk}
    (hseg : segment.Holds p.toParams chunks)
    (hholds : ∀ t ∈ segmentsOf (pre ++ .segment segment :: post), ∃ cs, t.Holds p.toParams cs)
    (hfresh : FreshIDs p store (segmentsOf (pre ++ .segment segment :: post)).length)
    (hhash : HashInj p.toParams (segmentsOf (pre ++ .segment segment :: post))) :
    ∃ s s₁ s', pre.foldlM (ExtremeServer.step p) (.init store u) = .ok s ∧
      s.step p (.segment segment) = .ok s₁ ∧
      post.foldlM (ExtremeServer.step p) s₁ = .ok s' ∧
      Recorded p.toParams s.upload chunks s₁.upload ∧
      BinsGrow p s.index.store s₁.index.store ∧ BinsGrow p s₁.index.store s'.index.store ∧
      Covered p (segmentsOf (pre ++ .segment segment :: post)) s' := by
  rw [segmentsOf_mid] at hholds hhash hfresh ⊢
  have hlen : (segmentsOf pre ++ [segment] ++ segmentsOf post).length =
      (segmentsOf pre).length + 1 + (segmentsOf post).length := by
    simp only [List.length_append, List.length_singleton]
  have hleft : HashInj p.toParams (segmentsOf pre ++ [segment]) := fun a ha b hb =>
    hhash a (List.mem_append_left _ ha) b (List.mem_append_left _ hb)
  obtain ⟨s, hpre, hinv, -⟩ := (extremeInv_init hfresh.notMem).run (s := .init store u)
    (fun t (ht : t ∈ segmentsOf pre) => hholds t (by simp [ht])) (by rw [List.length_nil]; omega)
    hfresh.inj (fun a ha b hb => hleft a (List.mem_append_left _ ha) b (List.mem_append_left _ hb))
  obtain ⟨r, hstep, hdone⟩ := hinv.processOneSegment hseg
    (by rw [List.nil_append]; omega) hfresh.inj (by rw [List.nil_append]; exact hleft)
  obtain ⟨s', hpost, hinv', hgrow⟩ := hdone.inv.run (s := { index := r.1, upload := r.2 })
    (fun t (ht : t ∈ segmentsOf post) => hholds t (by simp [ht]))
    (by simp only [List.nil_append, List.length_append, List.length_singleton]; omega) hfresh.inj
    hhash
  exact ⟨s, _, s', hpre, Loops.bind_eq_ok.mpr ⟨r, hstep, rfl⟩, hpost, hdone.recorded, hdone.bins,
    hgrow, hinv'.covered hhash⟩

/-- One segment of two equal chunks, processed twice. -/
theorem extreme_binning_correct_small :
    let chunks : List Chunk := [⟨[1, 2, 3], by decide⟩, ⟨[1, 2, 3], by decide⟩]
    let segment := segmentWith smallParams chunks
    ∃ s s₁, ExtremeServer.step smallSegmentParams (.init ∅ smallUpload) (.segment segment) = .ok s ∧
      s.step smallSegmentParams (.segment segment) = .ok s₁ ∧
      Recorded smallParams s.upload chunks s₁.upload := by
  intro chunks segment
  have hsegs : ∀ t ∈ [segment, segment], t = segment := by simp
  obtain ⟨s, s₁, s', hpre, hstep, -, hrecorded, -⟩ := extreme_binning_correct
    smallSegmentParams ∅ smallUpload [.segment segment] [] (segmentWith_holds smallParams chunks)
    (fun t ht => ⟨chunks, hsegs t ht ▸ segmentWith_holds smallParams chunks⟩)
    (freshIDs_small (by decide))
    (fun a ha b hb _ => by rw [hsegs a ha, hsegs b hb])
  exact ⟨s, s₁, Loops.foldlM_singleton_ok.mp hpre, hstep, hrecorded⟩

end Debe
