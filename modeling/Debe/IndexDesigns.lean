import Debe.NaiveIndex

/-!
# The exact index designs

Besides the batched frequency index there are three more exact designs: its
per-chunk variant (`IMPACT_OF_TOP_K`), an index kept only outside the enclave
(`EcallOutEnclaveIndex`) and one kept only inside (`EcallInEnclaveIndex`).  Each
is an `IndexDesign`: a state, its initial value, and what a batch does.

`Refines` says that a relation to the specification's map holds initially and is
carried along by every batch.  Each design refines the specification, so all of
them end every run in the same upload state.
-/

namespace Debe

/-- An index object: what it keeps between batches and what a batch does. -/
structure IndexDesign where
  State : Type
  init : State
  processOneBatch : State × Upload → UploadMsg → Except Fault (State × Upload)

/-- One client's batches one after another, each sent under its session key. -/
def IndexDesign.run (d : IndexDesign) {p : Params} (s : d.State × Upload)
    (batches : List (Batch p)) : Except Fault (d.State × Upload) :=
  batches.foldlM (fun s b => d.processOneBatch s (b.msg s.2.client.sessionKey)) s

/-- The specification on the same batches. -/
def naiveRun (p : Params) (n : Naive) (batches : List (Batch p)) : Naive :=
  batches.foldl (fun n b => naiveChunks p n b.data) n

/-! ## The designs -/

/-- The batched frequency index with the out-enclave index. -/
def freqDesign (p : Params) : IndexDesign where
  State := FreqIndex × OutIndex
  init := (.init, ∅)
  processOneBatch := fun s msg => do
    let r ← processOneBatch p s.1.1 s.1.2 msg s.2
    return ((r.1, r.2.1), r.2.2)

/-- Ask the out-enclave index (`ReadIndexStore`) and store what it does not know
(`ProcessUniqueChunk`, `UpdateIndexStore`).  `enc` and `dec` are the cipher used
for addresses, in which the callers differ. -/
def readOrStore (p : Params) (enc dec : Bytes → Bytes → Bytes) (chunk : Bytes) (out : OutIndex)
    (u : Upload) : RecipeEntry × OutIndex × Upload :=
  let cipherHash := p.crypto.indexAESCMCEnc p.indexQueryKey (p.crypto.generateHash chunk)
  match out.lookup cipherHash with
  | none =>
      let r := storeUnique p chunk u
      (r.1, out.insert cipherHash (enc p.indexQueryKey r.1.toBytes), r.2)
  | some cipherAddr => (RecipeEntry.ofBytes (dec p.indexQueryKey cipherAddr), out, u)

/-- One chunk in the per-chunk variant: sketch, heap, out-enclave index and heap
again, before the next chunk is looked at. -/
def perChunkStep (p : Params) (s : (FreqIndex × OutIndex) × Upload) (chunk : Bytes) :
    Except Fault ((FreqIndex × OutIndex) × Upload) := do
  let idx := s.1.1
  let fp := p.crypto.generateHash chunk
  let cmSketch := idx.cmSketch.update fp 1
  let chunkFreq := cmSketch.estimate fp
  let currentMinFreq ← minFreq p idx.insideDedupIndex
  if chunkFreq < currentMinFreq then
    let r := readOrStore p p.crypto.aesCBCEnc p.crypto.aesCBCDec chunk s.1.2 s.2
    return (({ idx with cmSketch := cmSketch }, r.2.1),
      recordChunk p fp chunk.length r.1 r.2.2)
  else
    match idx.insideDedupIndex.getPriority fp with
    | some item =>
        let heap ← inRange (idx.insideDedupIndex.update fp chunkFreq)
        return (({ cmSketch := cmSketch
                   insideDedupIndex := heap
                   insideDedupChunkNum := idx.insideDedupChunkNum + 1
                   insideDedupDataSize := idx.insideDedupDataSize + chunk.length }, s.1.2),
          recordChunk p fp chunk.length item.address s.2)
    | none =>
        let r := readOrStore p p.crypto.aesCBCEnc p.crypto.aesCBCDec chunk s.1.2 s.2
        let heap ← addChunkToHeap p idx.insideDedupIndex chunkFreq r.1 fp
        return (({ idx with cmSketch := cmSketch, insideDedupIndex := heap }, r.2.1),
          recordChunk p fp chunk.length r.1 r.2.2)

/-- The per-chunk variant of the frequency index. -/
def perChunkDesign (p : Params) : IndexDesign where
  State := FreqIndex × OutIndex
  init := (.init, ∅)
  processOneBatch := fun s msg =>
    (recvChunks p s.2.client.sessionKey msg).foldlM (perChunkStep p) s

/-- One chunk in `EcallOutEnclaveIndex`.  Addresses are encrypted with
`EncryptWithKey` here. -/
def outEnclaveStep (p : Params) (s : OutIndex × Upload) (chunk : Bytes) : OutIndex × Upload :=
  let r := readOrStore p p.crypto.encryptWithKey p.crypto.decryptWithKey chunk s.1 s.2
  (r.2.1, recordChunk p (p.crypto.generateHash chunk) chunk.length r.1 r.2.2)

/-- `EcallOutEnclaveIndex`. -/
def outEnclaveDesign (p : Params) : IndexDesign where
  State := OutIndex
  init := ∅
  processOneBatch := fun s msg =>
    (recvChunks p s.2.client.sessionKey msg).foldlM (fun s c => .ok (outEnclaveStep p s c)) s

/-- One chunk in `EcallInEnclaveIndex`.  `insideIndexObj_` maps fingerprints to
the sixteen bytes of an address. -/
def inEnclaveStep (p : Params) (s : AList (fun _ : Bytes => Bytes) × Upload) (chunk : Bytes) :
    AList (fun _ : Bytes => Bytes) × Upload :=
  let fp := p.crypto.generateHash chunk
  match s.1.lookup fp with
  | some addr => (s.1, recordChunk p fp chunk.length (RecipeEntry.ofBytes addr) s.2)
  | none =>
      let r := storeUnique p chunk s.2
      (s.1.insert fp r.1.toBytes, recordChunk p fp chunk.length r.1 r.2)

/-- `EcallInEnclaveIndex`. -/
def inEnclaveDesign (p : Params) : IndexDesign where
  State := AList (fun _ : Bytes => Bytes)
  init := ∅
  processOneBatch := fun s msg =>
    (recvChunks p s.2.client.sessionKey msg).foldlM (fun s c => .ok (inEnclaveStep p s c)) s

/-! ## Refinement -/

/-- The design follows the specification, with `R` between its state and the map. -/
structure Refines (p : Params) (d : IndexDesign)
    (R : d.State → AList (fun _ : Bytes => RecipeEntry) → Prop) : Prop where
  init : R d.init ∅
  batch : ∀ s (n : Naive) msg, R s n.stored →
    ∃ s', d.processOneBatch (s, n.upload) msg = .ok (s',
        (naiveChunks p n (recvChunks p n.upload.client.sessionKey msg)).upload) ∧
      R s' (naiveChunks p n (recvChunks p n.upload.client.sessionKey msg)).stored

/-- A design that refines the specification follows it over any run. -/
theorem Refines.run_from {p : Params} {d : IndexDesign}
    {R : d.State → AList (fun _ : Bytes => RecipeEntry) → Prop} (h : Refines p d R)
    {s : d.State} {n : Naive} (hR : R s n.stored) (batches : List (Batch p)) :
    ∃ s', d.run (s, n.upload) batches = .ok s' ∧ s'.2 = (naiveRun p n batches).upload ∧
      R s'.1 (naiveRun p n batches).stored :=
  Loops.foldlM_simulates
    (f := fun s (b : Batch p) => d.processOneBatch s (b.msg s.2.client.sessionKey))
    (g := fun n b => naiveChunks p n b.data)
    (R := fun s n => s.2 = n.upload ∧ R s.1 n.stored) (l := batches)
    (s := (s, n.upload)) (t := n) ⟨rfl, hR⟩ (by
      rintro ⟨s, u⟩ n b _ ⟨rfl, hR⟩
      obtain ⟨s', hrun, hR'⟩ := h.batch s n (b.msg n.upload.client.sessionKey) hR
      rw [recvChunks_msg] at hrun hR'
      exact ⟨_, hrun, rfl, hR'⟩)

/-- From the initial state it ends where the specification ends. -/
theorem Refines.run {p : Params} {d : IndexDesign}
    {R : d.State → AList (fun _ : Bytes => RecipeEntry) → Prop} (h : Refines p d R) (u : Upload)
    (batches : List (Batch p)) :
    ∃ s, d.run (d.init, u) batches = .ok (s, (naiveRun p ⟨∅, u⟩ batches).upload) := by
  obtain ⟨⟨s, u'⟩, hrun, hu', _⟩ := h.run_from (n := ⟨∅, u⟩) h.init batches
  have hend : u' = (naiveRun p ⟨∅, u⟩ batches).upload := hu'
  exact ⟨s, by rw [← hend]; exact hrun⟩

theorem freqDesign_refines (p : Params) :
    Refines p (freqDesign p) (fun s => FreqRel p s.1 s.2) where
  init := freqRel_init p
  batch := by
    intro s n msg hR
    obtain ⟨idx', out', hrun, hrel⟩ := processOneBatch_refines hR msg
    exact ⟨(idx', out'), by
      simp [freqDesign, hrun, bind, Except.bind, pure, Except.pure], hrel⟩

/-- The out-enclave index holds exactly the map, encrypted. -/
def OutRel (p : Params) (enc : Bytes → Bytes → Bytes) (out : OutIndex)
    (stored : AList (fun _ : Bytes => RecipeEntry)) : Prop :=
  ∀ fp, fp.length = chunkHashSize →
    out.lookup (p.crypto.indexAESCMCEnc p.indexQueryKey fp) =
      (stored.lookup fp).map fun a => enc p.indexQueryKey a.toBytes

/-- The shared outside path makes the specification's decision. -/
theorem readOrStore_spec {p : Params} {enc dec : Bytes → Bytes → Bytes}
    (hdec : ∀ a : RecipeEntry,
      RecipeEntry.ofBytes (dec p.indexQueryKey (enc p.indexQueryKey a.toBytes)) = a)
    {out : OutIndex} {n : Naive} (hR : OutRel p enc out n.stored) (chunk : Bytes) :
    (naiveChunk p n chunk).upload =
      recordChunk p (p.crypto.generateHash chunk) chunk.length
        (readOrStore p enc dec chunk out n.upload).1
        (readOrStore p enc dec chunk out n.upload).2.2 ∧
    OutRel p enc (readOrStore p enc dec chunk out n.upload).2.1 (naiveChunk p n chunk).stored ∧
    (naiveChunk p n chunk).stored.lookup (p.crypto.generateHash chunk) =
      some (readOrStore p enc dec chunk out n.upload).1 := by
  have hlen := p.crypto.length_generateHash chunk
  have hout := hR _ hlen
  cases hl : n.stored.lookup (p.crypto.generateHash chunk) with
  | some a =>
      rw [hl, Option.map_some] at hout
      rw [naiveChunk_reuse hl]
      simp only [readOrStore, hout, hdec]
      exact ⟨trivial, hR, hl⟩
  | none =>
      rw [hl, Option.map_none] at hout
      rw [naiveChunk_store hl]
      simp only [readOrStore, hout]
      refine ⟨trivial, ?_, AList.lookup_insert _⟩
      intro fp hfp
      by_cases hk : fp = p.crypto.generateHash chunk
      · subst hk
        rw [AList.lookup_insert, AList.lookup_insert, Option.map_some]
      · have hkey : p.crypto.indexAESCMCEnc p.indexQueryKey fp ≠
            p.crypto.indexAESCMCEnc p.indexQueryKey (p.crypto.generateHash chunk) := fun he =>
          hk (p.crypto.indexAESCMCEnc_inj (by rw [hfp]; rfl) (by rw [hlen]; rfl) he)
        rw [AList.lookup_insert_ne hkey, AList.lookup_insert_ne hk]
        exact hR fp hfp

/-- A design that runs chunk by chunk follows the specification when its chunk
step does. -/
theorem foldlM_follows {p : Params} {σ : Type}
    {step : σ × Upload → Bytes → Except Fault (σ × Upload)}
    {R : σ → AList (fun _ : Bytes => RecipeEntry) → Prop}
    (hstep : ∀ s (n : Naive) chunk, R s n.stored →
      ∃ s', step (s, n.upload) chunk = .ok (s', (naiveChunk p n chunk).upload) ∧
        R s' (naiveChunk p n chunk).stored)
    {s : σ} {n : Naive} (hR : R s n.stored) (chunks : List Bytes) :
    ∃ s', chunks.foldlM step (s, n.upload) = .ok (s', (naiveChunks p n chunks).upload) ∧
      R s' (naiveChunks p n chunks).stored := by
  obtain ⟨⟨s', u'⟩, hrun, hu', hR'⟩ := Loops.foldlM_simulates (g := naiveChunk p)
    (R := fun s n => s.2 = n.upload ∧ R s.1 n.stored) (l := chunks) (s := (s, n.upload)) (t := n)
    ⟨rfl, hR⟩ (by
      rintro ⟨s, u⟩ n chunk _ ⟨rfl, hR⟩
      obtain ⟨s', hrun, hR'⟩ := hstep s n chunk hR
      exact ⟨_, hrun, rfl, hR'⟩)
  have hend : u' = (naiveChunks p n chunks).upload := hu'
  exact ⟨s', by rw [← hend]; exact hrun, hR'⟩

/-- Heap and out-enclave index of the per-chunk variant stand for the map. -/
structure PerChunkRel (p : Params) (s : FreqIndex × OutIndex)
    (stored : AList (fun _ : Bytes => RecipeEntry)) : Prop where
  heap : HeapGood p (InMap stored) s.1.insideDedupIndex
  outside : OutRel p p.crypto.aesCBCEnc s.2 stored

/-- The specification's map keeps every address across a chunk. -/
theorem inMap_naiveChunk {p : Params} {n : Naive} (chunk : Bytes) :
    ∀ fp a, InMap n.stored fp a → InMap (naiveChunk p n chunk).stored fp a :=
  naiveChunks_stored_mono p n [chunk]

/-- `currentMinFreq` is the top of a full heap, else zero. -/
theorem minFreq_cases {p : Params} {heap : EntryHeap} {m : Nat} (h : minFreq p heap = .ok m) :
    (heap.size = p.topThreshold ∧ heap.topEntry = some m) ∨
      (heap.size ≠ p.topThreshold ∧ m = 0) := by
  unfold minFreq at h
  split at h
  · rename_i hfull
    cases htop : heap.topEntry with
    | none =>
        rw [htop] at h
        cases h
    | some t =>
        rw [htop] at h
        cases h
        exact .inl ⟨hfull, rfl⟩
  · rename_i hfull
    cases h
    exact .inr ⟨hfull, rfl⟩

/-- An estimate that is not below `currentMinFreq` is not below the top. -/
theorem top_le_of_not_lt {p : Params} {heap : EntryHeap} {m chunkFreq : Nat}
    (h : minFreq p heap = .ok m) (hle : ¬ chunkFreq < m) :
    heap.size = p.topThreshold → ∀ t, heap.topEntry = some t → t ≤ chunkFreq := by
  intro hfull t ht
  rcases minFreq_cases h with ⟨-, hm⟩ | ⟨hnot, -⟩
  · obtain rfl : m = t := Option.some.inj (hm.symm.trans ht)
    exact not_lt.mp hle
  · exact absurd hfull hnot

/-- What one chunk makes of the heap in the per-chunk variant. -/
inductive HeapChange (p : Params) (heap : EntryHeap) (fp : Bytes) (chunkFreq : Nat) :
    EntryHeap → Prop
  | skip {t : Nat} (hfull : heap.size = p.topThreshold) (htop : heap.topEntry = some t)
      (hlt : chunkFreq < t) : HeapChange p heap fp chunkFreq heap
  | update {heap' : EntryHeap} (hmem : fp ∈ heap.index)
      (hrun : heap.update fp chunkFreq = some heap') : HeapChange p heap fp chunkFreq heap'
  | add {heap' : EntryHeap} (hnew : fp ∉ heap.index)
      (htop : heap.size = p.topThreshold → ∀ t, heap.topEntry = some t → t ≤ chunkFreq)
      (a : RecipeEntry) (hrun : addChunkToHeap p heap chunkFreq a fp = .ok heap') :
      HeapChange p heap fp chunkFreq heap'

section PerChunk

variable {p : Params} {s : FreqIndex × OutIndex} {u : Upload} {chunk : Bytes} {f : Nat}

/-- A chunk that is not frequent enough takes the outside path. -/
theorem perChunkStep_outside (hf : minFreq p s.1.insideDedupIndex = .ok f)
    (hlow : (s.1.cmSketch.update (p.crypto.generateHash chunk) 1).estimate
      (p.crypto.generateHash chunk) < f) :
    let r := readOrStore p p.crypto.aesCBCEnc p.crypto.aesCBCDec chunk s.2 u
    perChunkStep p (s, u) chunk =
      .ok (({ s.1 with cmSketch := s.1.cmSketch.update (p.crypto.generateHash chunk) 1 }, r.2.1),
        recordChunk p (p.crypto.generateHash chunk) chunk.length r.1 r.2.2) := by
  simp only [perChunkStep, hf, bind, Except.bind, pure, Except.pure]
  exact if_pos hlow

/-- A frequent chunk that the heap has takes the address from there. -/
theorem perChunkStep_inside (hf : minFreq p s.1.insideDedupIndex = .ok f)
    (hlow : ¬(s.1.cmSketch.update (p.crypto.generateHash chunk) 1).estimate
      (p.crypto.generateHash chunk) < f) {item : HeapItem} {heap : EntryHeap}
    (hget : s.1.insideDedupIndex.index.lookup (p.crypto.generateHash chunk) = some item)
    (hrun : s.1.insideDedupIndex.update (p.crypto.generateHash chunk)
      ((s.1.cmSketch.update (p.crypto.generateHash chunk) 1).estimate
        (p.crypto.generateHash chunk)) = some heap) :
    perChunkStep p (s, u) chunk =
      .ok (({ cmSketch := s.1.cmSketch.update (p.crypto.generateHash chunk) 1
              insideDedupIndex := heap
              insideDedupChunkNum := s.1.insideDedupChunkNum + 1
              insideDedupDataSize := s.1.insideDedupDataSize + chunk.length }, s.2),
        recordChunk p (p.crypto.generateHash chunk) chunk.length item.address u) := by
  simp only [perChunkStep, hf, bind, Except.bind, pure, Except.pure]
  refine (if_neg hlow).trans ?_
  rw [EntryHeap.getPriority, hget]
  dsimp only
  rw [hrun]
  rfl

/-- A frequent chunk that is new to the heap takes the outside path and enters the heap. -/
theorem perChunkStep_enters (hf : minFreq p s.1.insideDedupIndex = .ok f)
    (hlow : ¬(s.1.cmSketch.update (p.crypto.generateHash chunk) 1).estimate
      (p.crypto.generateHash chunk) < f) {heap : EntryHeap}
    (hget : s.1.insideDedupIndex.index.lookup (p.crypto.generateHash chunk) = none)
    (hrun : addChunkToHeap p s.1.insideDedupIndex
      ((s.1.cmSketch.update (p.crypto.generateHash chunk) 1).estimate
        (p.crypto.generateHash chunk))
      (readOrStore p p.crypto.aesCBCEnc p.crypto.aesCBCDec chunk s.2 u).1
      (p.crypto.generateHash chunk) = .ok heap) :
    let r := readOrStore p p.crypto.aesCBCEnc p.crypto.aesCBCDec chunk s.2 u
    perChunkStep p (s, u) chunk =
      .ok (({ s.1 with
              cmSketch := s.1.cmSketch.update (p.crypto.generateHash chunk) 1
              insideDedupIndex := heap }, r.2.1),
        recordChunk p (p.crypto.generateHash chunk) chunk.length r.1 r.2.2) := by
  simp only [perChunkStep, hf, bind, Except.bind, pure, Except.pure]
  refine (if_neg hlow).trans ?_
  rw [EntryHeap.getPriority, hget]
  dsimp only
  rw [hrun]

/-- One chunk of the per-chunk variant, with what the map allows before it and after it:
the address comes from the heap if the fingerprint is there, else from the outside path. -/
theorem perChunkStep_run {good good' : Bytes → RecipeEntry → Prop}
    (hheap : HeapGood p good s.1.insideDedupIndex) (hmono : ∀ fp a, good fp a → good' fp a)
    (hin : good' (p.crypto.generateHash chunk)
      (readOrStore p p.crypto.aesCBCEnc p.crypto.aesCBCDec chunk s.2 u).1) :
    ∃ s', perChunkStep p (s, u) chunk = .ok s' ∧
      HeapGood p good' s'.1.1.insideDedupIndex ∧
      s'.1.1.cmSketch = s.1.cmSketch.update (p.crypto.generateHash chunk) 1 ∧
      HeapChange p s.1.insideDedupIndex (p.crypto.generateHash chunk)
        (s'.1.1.cmSketch.estimate (p.crypto.generateHash chunk)) s'.1.1.insideDedupIndex ∧
      ((∃ a, (∃ f, s.1.insideDedupIndex.entry (p.crypto.generateHash chunk) = some (f, a)) ∧
          s'.1.2 = s.2 ∧
          s'.2 = recordChunk p (p.crypto.generateHash chunk) chunk.length a u) ∨
        (s'.1.2 = (readOrStore p p.crypto.aesCBCEnc p.crypto.aesCBCDec chunk s.2 u).2.1 ∧
          s'.2 = recordChunk p (p.crypto.generateHash chunk) chunk.length
            (readOrStore p p.crypto.aesCBCEnc p.crypto.aesCBCDec chunk s.2 u).1
            (readOrStore p p.crypto.aesCBCEnc p.crypto.aesCBCDec chunk s.2 u).2.2)) := by
  obtain ⟨f, hf⟩ := minFreq_spec hheap
  let fp := p.crypto.generateHash chunk
  let sketch := s.1.cmSketch.update fp 1
  by_cases hlow : sketch.estimate fp < f
  · refine ⟨_, perChunkStep_outside hf hlow, hheap.mono hmono, rfl, ?_, .inr ⟨rfl, rfl⟩⟩
    rcases minFreq_cases hf with ⟨hfull, htop⟩ | ⟨-, rfl⟩
    · exact .skip hfull htop hlow
    · exact absurd hlow (Nat.not_lt_zero _)
  · cases hget : s.1.insideDedupIndex.index.lookup fp with
    | some item =>
        have hentry : s.1.insideDedupIndex.entry fp = some (item.chunkFreq, item.address) := by
          simp [EntryHeap.entry, hget]
        have hmem : fp ∈ s.1.insideDedupIndex.index :=
          EntryHeap.mem_index_iff.mpr (by simp [hentry])
        obtain ⟨heap', hrun, hheap', -⟩ := (hheap.mono hmono).update hentry (sketch.estimate fp)
        exact ⟨_, perChunkStep_inside hf hlow hget hrun, hheap', rfl, .update hmem hrun,
          .inl ⟨item.address, ⟨_, hentry⟩, rfl, rfl⟩⟩
    | none =>
        have hnew : fp ∉ s.1.insideDedupIndex.index := AList.lookup_eq_none.mp hget
        obtain ⟨heap', hrun, hgood, -⟩ :=
          addChunkToHeap_spec (hheap.mono hmono) hnew hin (sketch.estimate fp)
        exact ⟨_, perChunkStep_enters hf hlow hget hrun, hgood, rfl,
          .add hnew (top_le_of_not_lt hf hlow) _ hrun, .inr ⟨rfl, rfl⟩⟩

end PerChunk

/-- One chunk of the per-chunk variant is one step of the specification. -/
theorem perChunkStep_follows {p : Params} {s : FreqIndex × OutIndex} {n : Naive}
    (h : PerChunkRel p s n.stored) (chunk : Bytes) :
    ∃ s', perChunkStep p (s, n.upload) chunk = .ok (s', (naiveChunk p n chunk).upload) ∧
      PerChunkRel p s' (naiveChunk p n chunk).stored := by
  obtain ⟨hup, hout, hin⟩ := readOrStore_spec (p := p) (p.crypto.aesCBCDec_address p.indexQueryKey)
    h.outside chunk
  obtain ⟨s', hrun, hgood, -, -, hcase⟩ :=
    perChunkStep_run h.heap (inMap_naiveChunk (p := p) chunk) hin
  rcases hcase with ⟨a, ⟨f, hentry⟩, hsame, hs'⟩ | ⟨hread, hs'⟩
  · -- a hit in the heap is a hit in the map
    have hmap := h.heap.good _ _ _ hentry
    rw [naiveChunk_reuse hmap] at hgood ⊢
    refine ⟨s'.1, by rw [hrun, ← hs'], hgood, ?_⟩
    rw [hsame]
    exact h.outside
  · refine ⟨s'.1, by rw [hrun, hup, ← hs'], hgood, ?_⟩
    rw [hread]
    exact hout

theorem perChunkDesign_refines (p : Params) : Refines p (perChunkDesign p) (PerChunkRel p) where
  init := ⟨heapGood_empty p _, fun _ _ => rfl⟩
  batch := fun _ _ _ hR => foldlM_follows (fun _ _ chunk h => perChunkStep_follows h chunk) hR _

theorem outEnclaveDesign_refines (p : Params) :
    Refines p (outEnclaveDesign p) (OutRel p p.crypto.encryptWithKey) where
  init := fun _ _ => rfl
  batch := by
    intro s n msg hR
    have hdec : ∀ a : RecipeEntry, RecipeEntry.ofBytes (p.crypto.decryptWithKey p.indexQueryKey
        (p.crypto.encryptWithKey p.indexQueryKey a.toBytes)) = a := by
      intro a
      rw [p.crypto.decryptWithKey_encryptWithKey, a.ofBytes_toBytes]
    refine foldlM_follows (fun s n chunk h => ?_) hR _
    obtain ⟨hup, hout, _⟩ := readOrStore_spec hdec h chunk
    exact ⟨_, by rw [hup]; rfl, hout⟩

/-- The in-enclave index holds exactly the map, as bytes. -/
def InRel (index : AList (fun _ : Bytes => Bytes))
    (stored : AList (fun _ : Bytes => RecipeEntry)) : Prop :=
  ∀ fp, index.lookup fp = (stored.lookup fp).map RecipeEntry.toBytes

/-- One chunk of the in-enclave index is one step of the specification. -/
theorem inEnclaveStep_follows {p : Params} {index : AList (fun _ : Bytes => Bytes)} {n : Naive}
    (h : InRel index n.stored) (chunk : Bytes) :
    ∃ index', inEnclaveStep p (index, n.upload) chunk = (index', (naiveChunk p n chunk).upload) ∧
      InRel index' (naiveChunk p n chunk).stored := by
  have hl := h (p.crypto.generateHash chunk)
  cases hstored : n.stored.lookup (p.crypto.generateHash chunk) with
  | some a =>
      rw [hstored, Option.map_some] at hl
      rw [naiveChunk_reuse hstored]
      exact ⟨index, by simp only [inEnclaveStep, hl, a.ofBytes_toBytes], h⟩
  | none =>
      rw [hstored, Option.map_none] at hl
      rw [naiveChunk_store hstored]
      refine ⟨index.insert (p.crypto.generateHash chunk) (storeUnique p chunk n.upload).1.toBytes,
        by simp only [inEnclaveStep, hl], ?_⟩
      intro fp
      by_cases hk : fp = p.crypto.generateHash chunk
      · subst hk
        rw [AList.lookup_insert, AList.lookup_insert, Option.map_some]
      · rw [AList.lookup_insert_ne hk, AList.lookup_insert_ne hk]
        exact h fp

theorem inEnclaveDesign_refines (p : Params) : Refines p (inEnclaveDesign p) InRel where
  init := fun _ => rfl
  batch := by
    intro s n msg hR
    refine foldlM_follows (R := InRel) (fun s n chunk h => ?_) hR _
    obtain ⟨index', hstep, hR'⟩ := inEnclaveStep_follows h chunk
    exact ⟨index', congrArg Except.ok hstep, hR'⟩

/-- **All exact index designs agree.**  From empty indexes and any client state,
on any batches, the batched frequency index, its per-chunk variant, the
out-enclave index and the in-enclave index all run through and end in the upload
state of the specification: the same recipe, the same containers and the same
statistics. -/
theorem exact_designs_agree (p : Params) (u : Upload) (batches : List (Batch p)) :
    (∃ s, (freqDesign p).run ((freqDesign p).init, u) batches =
      .ok (s, (naiveRun p ⟨∅, u⟩ batches).upload)) ∧
    (∃ s, (perChunkDesign p).run ((perChunkDesign p).init, u) batches =
      .ok (s, (naiveRun p ⟨∅, u⟩ batches).upload)) ∧
    (∃ s, (outEnclaveDesign p).run ((outEnclaveDesign p).init, u) batches =
      .ok (s, (naiveRun p ⟨∅, u⟩ batches).upload)) ∧
    (∃ s, (inEnclaveDesign p).run ((inEnclaveDesign p).init, u) batches =
      .ok (s, (naiveRun p ⟨∅, u⟩ batches).upload)) :=
  ⟨(freqDesign_refines p).run u batches, (perChunkDesign_refines p).run u batches,
    (outEnclaveDesign_refines p).run u batches, (inEnclaveDesign_refines p).run u batches⟩

end Debe
