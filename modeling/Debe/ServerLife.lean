import Debe.FreqServer
import Debe.InMemoryDatabase
import Debe.StoredOnce

/-!
# Uploads and restarts

The life of a server with the frequency index: a first start, then uploads and clean restarts in
any order.  A shutdown writes the counters, the sketch, the heap, the keys if they are new, and
the out-enclave index; the next start reads them back.  Containers and recipes are files all the
time.

What was loaded is not the state that was sealed: positions of the heap are rebuilt, the
out-enclave index has its entries in another order, two statistics are gone.  But both stand for
the same map of fingerprints, and the rest of an upload is read off that map.  So a server that is
restarted cannot be told from one that is not.
-/

namespace Debe

open Sealed

/-! ## The life of a server -/

/-- The counters as the enclave has them. -/
def Stats.counters (s : Stats) : Counters where
  logicalDataSize := UInt64.ofNat s.logicalDataSize
  logicalChunkNum := UInt64.ofNat s.logicalChunkNum
  uniqueDataSize := UInt64.ofNat s.uniqueDataSize
  uniqueChunkNum := UInt64.ofNat s.uniqueChunkNum
  compressedDataSize := UInt64.ofNat s.compressedDataSize

/-- The counters that a start continues from. -/
def Counters.stats (c : Counters) : Stats where
  logicalDataSize := c.logicalDataSize.toNat
  logicalChunkNum := c.logicalChunkNum.toNat
  uniqueDataSize := c.uniqueDataSize.toNat
  uniqueChunkNum := c.uniqueChunkNum.toNat
  compressedDataSize := c.compressedDataSize.toNat

/-- A running server: the keys with `firstBootstrap_`, what the process and its disk hold, and the
sealed files. -/
structure RunningServer where
  keys : Keys × Bool
  srv : Server
  sealed : Sealed

/-- What a start, and the shutdown before it, depend on besides the files: what `malloc` gives and
which keys `sgx_read_rand` would draw. -/
structure CleanStart where
  junkAtEnd : Nat → UInt8
  junk : Nat → UInt8
  drawn : Keys

/-- The start of a new process with the frequency index. -/
def CleanStart.toStart (p : Params) (c : CleanStart) : Sealed.Start where
  newProcess := true
  junk := c.junk
  sendChunkBatchSize := p.sendChunkBatchSize
  batch_pos := p.sendChunkBatchSize_pos
  drawn := c.drawn
  indexType := .freqIndex

/-- `main` up to the first client, on the containers and recipes of a disk. -/
def startServer (p : Params) (c : CleanStart) (dbFile : Option Bytes) (sealed : Sealed)
    (disk : Disk) (recipes : AList (fun _ : Bytes => Bytes)) : Except Fault RunningServer := do
  let out ← InMemoryDatabase.openDB dbFile
  let r ← Sealed.start (c.toStart p) sealed
  return {
    keys := r.1.1
    srv := {
      index := r.1.2.1
      out := out
      disk := disk
      stats := r.1.2.2.stats
      recipes := recipes }
    sealed := r.2 }

/-- `CTRLC` without clients: the sealed files and the file of the out-enclave index. -/
def stopServer (p : Params) (junkAtEnd : Nat → UInt8) (s : RunningServer) :
    Except Fault (Sealed × Bytes) := do
  let sealed ← Sealed.ecallDestroyUpload junkAtEnd p.sendChunkBatchSize .freqIndex
    (s.srv.index, s.srv.stats.counters) s.sealed
  let sealed ← Sealed.ecallEnclaveDestroy s.keys sealed
  return (sealed, InMemoryDatabase.destroy s.srv.out)

/-- What happens to a server. -/
inductive LifeEvent (p : Params)
  | upload (s : UploadSession p)
  | restart (c : CleanStart)

/-- The uploads among the events. -/
def LifeEvent.session {p : Params} : LifeEvent p → Option (UploadSession p)
  | .upload s => some s
  | .restart _ => none

/-- One event.  An upload runs under the keys of the process. -/
def lifeStep (p : Params) (s : RunningServer) : LifeEvent p → Except Fault RunningServer
  | .upload u => do
      let srv ← runSession (p.withKeys s.keys.1) s.srv (u.withKeys s.keys.1)
      return { s with srv := srv }
  | .restart c => do
      let files ← stopServer p c.junkAtEnd s
      startServer p c (some files.2) files.1 s.srv.disk s.srv.recipes

/-- The whole life, from a start without any files. -/
def runLife (p : Params) (first : CleanStart) (events : List (LifeEvent p)) :
    Except Fault RunningServer := do
  let s ← startServer p first none .init { written := [], draws := 0, saved := [] } ∅
  events.foldlM (lifeStep p) s

/-! ## The out-enclave index -/

namespace InMemoryDatabase

/-- A map whose keys and values an `int` measures comes back with the same entries. -/
theorem openDB_destroy {indexObj : OutIndex} (hfits : ∀ e ∈ indexObj.entries, Fits e) :
    ∃ indexObj', openDB (some (destroy indexObj)) = .ok indexObj' ∧
      ∀ k, indexObj'.lookup k = indexObj.lookup k := by
  rw [destroy_eq]
  by_cases hne : indexObj.entries = []
  · refine ⟨∅, by rw [hne]; exact openDB_nil, fun k => ?_⟩
    rw [AList.lookup_empty, AList.lookup, hne]
    rfl
  · have hpos := List.length_pos_iff.mpr hne
    have hle := length_le_pairs (l := indexObj.entries)
    obtain ⟨s, hrun, hs⟩ := loadLoop_eq (a := []) hfits (List.nil_append _).symm
      (Nat.lt_succ_of_le hle) [] [] ∅
    refine ⟨s.indexObj, openDB_some (by omega) hrun, fun k => ?_⟩
    rw [hs]
    exact lookup_rebuild indexObj.nodupKeys k

end InMemoryDatabase

variable {p : Params} {idx idx' : FreqIndex} {out out' : OutIndex}
  {stored : AList (fun _ : Bytes => RecipeEntry)}

/-- Keys and values are two blocks of cipher text. -/
theorem OutGood.fits {good : Bytes → RecipeEntry → Prop} (h : OutGood p good out) :
    ∀ e ∈ out.entries, InMemoryDatabase.Fits e := by
  intro e he
  obtain ⟨fp, a, hlen, hkey, hvalue, -⟩ := h e.1 e.2 (AList.mem_lookup_iff.mpr he)
  have hfp : fp.length % cryptoBlockSize = 0 := by
    rw [hlen]
    rfl
  have haddr : a.toBytes.length % cryptoBlockSize = 0 := by
    rw [a.length_toBytes]
    rfl
  have hinner := p.crypto.length_aesCBCEnc p.indexQueryKey fp hfp
  have hkeyLength : e.1.length = chunkHashSize := by
    rw [hkey, Crypto.indexAESCMCEnc, p.crypto.length_aesCBCEnc _ _ (by
      rw [List.length_reverse, hinner, hfp]), List.length_reverse, hinner, hlen]
  have hvalueLength : e.2.length = recipeEntrySize := by
    rw [hvalue, p.crypto.length_aesCBCEnc _ _ haddr, a.length_toBytes]
  exact ⟨by rw [hkeyLength]; decide, by rw [hvalueLength]; decide⟩

/-! ## The frequency index -/

/-- The indexes stand for a map of fingerprints, and the frequency index can be sealed. -/
structure LiveRel (p : Params) (idx : FreqIndex) (out : OutIndex)
    (stored : AList (fun _ : Bytes => RecipeEntry)) : Prop where
  rel : FreqRel p idx out stored
  live : idx.Live
  hashed : ∀ fp a, InMap stored fp a → fp.length = chunkHashSize

/-- **Batches keep it.** -/
theorem freqDesign_liveRel (p : Params) :
    Refines p (freqDesign p) (fun s => LiveRel p s.1 s.2) where
  init := ⟨freqRel_init p, FreqIndex.live_init, nofun⟩
  batch := by
    rintro ⟨idx, out⟩ n msg h
    obtain ⟨idx', out', looked, hrun, hrel, hpass⟩ :=
      processOneBatchAt_refines idx.cmSketch.pos h.rel msg
    have hbatch := processOneBatch_eq_at p idx out msg n.upload
    rw [hrun] at hbatch
    have hsmall : (recvChunks p n.upload.client.sessionKey msg).length < 2 ^ 32 := by
      rw [recvChunks, Records.length_readRecords]
      exact msg.currentItemNum.toNat_lt
    have hhashed : ∀ fp a, InMap (naiveChunks p n (recvChunks p n.upload.client.sessionKey
        msg)).stored fp a → fp.length = chunkHashSize :=
      FreqServer.naiveChunks_hashed h.hashed _
    refine ⟨(idx', out'), ?_, hrel, ?_, hhashed⟩
    · simp only [freqDesign, hbatch, Except.map, bind, Except.bind, pure, Except.pure]
    · exact FreqServer.live_of_rel hrel hhashed h.live (hpass.firsts h.rel.heap hsmall).1
        (hpass.freqs h.rel.heap hsmall h.live.freqs)

/-- What was loaded stands for the same map. -/
theorem LiveRel.reloaded (h : LiveRel p idx out stored) (hre : idx.Reloaded idx')
    (hout : ∀ k, out'.lookup k = out.lookup k) : LiveRel p idx' out' stored where
  rel :=
    { heap :=
        { inv := hre.heap.inv h.live.inv
          size := (congrArg List.length hre.heap.heap).trans_le h.rel.heap.size
          good := fun fp f a hentry => h.rel.heap.good fp f a (hre.heap.entry fp ▸ hentry) }
      outside := fun key value hlook => h.rel.outside key value (hout key ▸ hlook)
      covers := fun fp hlen hnone => h.rel.covers fp hlen (hout _ ▸ hnone) }
  live := hre.live h.live
  hashed := h.hashed

/-! ## A session, whatever the indexes -/

/-- A session is the specification's, as long as the indexes stand for its map. -/
theorem runSession_refines
    {R : FreqIndex × OutIndex → AList (fun _ : Bytes => RecipeEntry) → Prop}
    (hrefines : Refines p (freqDesign p) R) (srv : Server) (hR : R (srv.index, srv.out) stored)
    (s : UploadSession p) :
    ∃ idx out, R (idx, out) (naiveSession p stored srv s).stored ∧
      runSession p srv s = .ok {
        index := idx
        out := out
        disk := (closeSession p s.recipeEnd (naiveSession p stored srv s).upload).disk
        stats := (closeSession p s.recipeEnd (naiveSession p stored srv s).upload).stats
        recipes := srv.recipes.insert s.recipePath
          (closeSession p s.recipeEnd
            (naiveSession p stored srv s).upload).client.recipeFile } := by
  obtain ⟨⟨⟨idx, out⟩, u⟩, hrun, hu, hR'⟩ :=
    hrefines.run_from (s := (srv.index, srv.out)) (n := ⟨stored, login p srv s⟩) hR s.batches
  rw [naiveRun_eq_naiveChunks] at hu hR'
  have hend : u = (naiveSession p stored srv s).upload := hu
  refine ⟨idx, out, hR', ?_⟩
  rw [← hend]
  simp only [runSession, hrun, bind, Except.bind, pure, Except.pure]

/-! ## The counters -/

/-- The counters fit their words. -/
structure Stats.Words (s : Stats) : Prop where
  logicalDataSize : s.logicalDataSize < 2 ^ 64
  logicalChunkNum : s.logicalChunkNum < 2 ^ 64
  uniqueDataSize : s.uniqueDataSize < 2 ^ 64
  uniqueChunkNum : s.uniqueChunkNum < 2 ^ 64
  compressedDataSize : s.compressedDataSize < 2 ^ 64

theorem Stats.Words.stats_counters {s : Stats} (h : s.Words) : s.counters.stats = s := by
  obtain ⟨h₁, h₂, h₃, h₄, h₅⟩ := h
  simp only [Stats.counters, Counters.stats, UInt64.toNat_ofNat_of_lt' h₁,
    UInt64.toNat_ofNat_of_lt' h₂, UInt64.toNat_ofNat_of_lt' h₃, UInt64.toNat_ofNat_of_lt' h₄,
    UInt64.toNat_ofNat_of_lt' h₅]

/-- The number and the size of the chunks bound all counters. -/
theorem dedupStats_words {seen : List Bytes} (hnum : seen.length < 2 ^ 64)
    (hsize : seen.flatten.length < 2 ^ 64) : (dedupStats p seen).Words := by
  have hfirsts : (Firsts.firsts p.crypto.generateHash seen).Sublist seen :=
    Firsts.firsts_sublist seen
  have hunique : ((Firsts.firsts p.crypto.generateHash seen).map List.length).sum ≤
      (seen.map List.length).sum := (hfirsts.map List.length).sum_le_sum (fun _ _ => Nat.zero_le _)
  have hcompressed : ∀ cs : List Bytes,
      (cs.flatMap (payload p)).length ≤ (cs.map List.length).sum := by
    intro cs
    rw [List.length_flatMap]
    exact List.sum_le_sum fun c _ => length_payload_le p c
  rw [List.length_flatten] at hsize
  exact
    { logicalDataSize := hsize
      logicalChunkNum := hnum
      uniqueDataSize := hunique.trans_lt hsize
      uniqueChunkNum := (List.toFinset_card_le _).trans_lt (by rwa [List.length_map])
      compressedDataSize := ((hcompressed _).trans hunique).trans_lt hsize }

/-! ## Stopping and starting -/

/-- What a stop leaves in the sealed files. -/
structure StoppedFiles (s : RunningServer) (sealed : Sealed) : Prop where
  closed : Closed sealed
  info : sealed.files .enclaveIndexInfo = some s.srv.stats.counters.toBytes
  sketch : sealed.files .sketch = some (sketchImages s.srv.index.cmSketch)
  heap : sealed.files .freqIndex = some (heapImages s.srv.index.insideDedupIndex)
  keys : sealed.files .enclaveKey =
    if s.keys.2 then some s.keys.1.toBytes else s.sealed.files .enclaveKey

/-- **A stop** writes everything. -/
theorem stopServer_eq {s : RunningServer} (hclosed : Closed s.sealed) (hlive : s.srv.index.Live)
    (hsize : s.srv.index.insideDedupIndex.size ≤ 2 ^ 32) (junk : Nat → UInt8) :
    ∃ sealed, stopServer p junk s = .ok (sealed, InMemoryDatabase.destroy s.srv.out) ∧
      StoppedFiles s sealed := by
  have hpersist := persistFreqIndex_eq (hlive.sealable hsize)
    (hclosed.put .enclaveIndexInfo s.srv.stats.counters.toBytes) junk
  let persisted := ((s.sealed.put .enclaveIndexInfo s.srv.stats.counters.toBytes).put .sketch
    (sketchImages s.srv.index.cmSketch)).put .freqIndex (heapImages s.srv.index.insideDedupIndex)
  have hput : Closed persisted := ((hclosed.put _ _).put _ _).put _ _
  have hdestroy : Sealed.ecallDestroyUpload junk p.sendChunkBatchSize .freqIndex
      (s.srv.index, s.srv.stats.counters) s.sealed = .ok persisted := by
    rw [ecallDestroyUpload_eq hclosed]
    exact hpersist
  refine ⟨if s.keys.2 then persisted.put .enclaveKey s.keys.1.toBytes else persisted, ?_, ?_⟩
  · simp only [stopServer, hdestroy, ecallEnclaveDestroy_eq hput, bind, Except.bind, pure,
      Except.pure]
  · split
    · rename_i hnew
      exact
        { closed := hput.put _ _
          info := rfl
          sketch := rfl
          heap := rfl
          keys := by rw [put_files_self, if_pos hnew] }
    · rename_i hold
      exact
        { closed := hput
          info := rfl
          sketch := rfl
          heap := rfl
          keys := by rw [if_neg hold]; rfl }

/-- **A start** reads everything. -/
theorem startServer_eq {sealed : Sealed} (hclosed : Closed sealed) (c : CleanStart)
    {dbFile : Option Bytes} (hout : InMemoryDatabase.openDB dbFile = .ok out)
    (good : FreqIndex → Prop)
    (hindex : ∀ s, Closed s → s.files = sealed.files →
      ∃ index, Loaded s (loadFreqIndex c.junk .init s) index ∧ good index)
    (counters : Option Counters)
    (hinfo : sealed.files .enclaveIndexInfo = counters.map Counters.toBytes)
    (disk : Disk) (recipes : AList (fun _ : Bytes => Bytes)) :
    ∃ index sealed', good index ∧ Closed sealed' ∧ sealed'.files = sealed.files ∧
      startServer p c dbFile sealed disk recipes = .ok {
        keys := Debe.ecallEnclaveInit ((sealed.files .enclaveKey).getD []) c.drawn
          ⟨malloc c.junk (chunkHashSize * 2), length_malloc _ _⟩
        srv := {
          index := index
          out := out
          disk := disk
          stats := (counters.getD {}).stats
          recipes := recipes }
        sealed := sealed' } := by
  have hnew : Closed sealed.newProcess := hclosed.start true
  obtain ⟨st₁, hkeys, hst₁⟩ := ecallEnclaveInit_eq hnew c.junk c.drawn
  have hclosed₁ := hnew.reading hst₁
  obtain ⟨index, hmade, hgood⟩ := hindex _ hclosed₁ rfl
  have hinfo₁ : (sealed.newProcess.reading st₁).files .enclaveIndexInfo =
      counters.map Counters.toBytes := hinfo
  have hconstruct : Loaded (sealed.newProcess.reading st₁) (construct c.junk p.sendChunkBatchSize
      (sealed.newProcess.reading st₁) .freqIndex) index := hmade
  have hupload : Loaded (sealed.newProcess.reading st₁) (ecallInitUpload c.junk
      p.sendChunkBatchSize .freqIndex (sealed.newProcess.reading st₁)) (index, counters.getD {}) :=
    ecallInitUpload_eq hclosed₁ hconstruct hinfo₁
  obtain ⟨st₂, hinit, hst₂⟩ := hupload
  refine ⟨index, _, hgood, hclosed₁.reading hst₂, rfl, ?_⟩
  simp only [startServer, hout, Sealed.start, CleanStart.toStart, if_true, hkeys, hinit, bind,
    Except.bind, pure, Except.pure]
  rfl

/-! ## The invariant of a life -/

/-- The server holds what `srv` holds, a server with the keys `k` that got the same chunks and was
never stopped: the same disk, counters and recipes, and indexes that stand for the same map. -/
structure Alive (p : Params) (k : Keys) (seen : List Bytes) (srv : Server) (s : RunningServer) :
    Prop where
  keys : s.keys.1 = k
  keyFile : s.keys.2 = false → s.sealed.files .enclaveKey = some k.toBytes
  closed : Closed s.sealed
  disk : s.srv.disk = srv.disk
  stats : s.srv.stats = srv.stats
  recipes : s.srv.recipes = srv.recipes
  indexes : ∃ stored, LiveRel (p.withKeys k) s.srv.index s.srv.out stored ∧
    FreqRel (p.withKeys k) srv.index srv.out stored ∧
    Tallied (p.withKeys k) seen stored srv.stats

variable {k : Keys} {seen : List Bytes} {srv : Server} {s : RunningServer}

/-- The enclave's keys leave the chunks as they are. -/
@[simp] theorem chunks_withKeys (u : UploadSession p) (k : Keys) :
    (u.withKeys k).chunks = u.chunks := by
  rw [UploadSession.chunks, UploadSession.withKeys, List.flatMap_map]
  rfl

/-- A server that starts without any files. -/
theorem alive_start (p : Params) (first : CleanStart) :
    ∃ s, startServer p first none .init { written := [], draws := 0, saved := [] } ∅ = .ok s ∧
      Alive p first.drawn [] .init s := by
  have hopen : InMemoryDatabase.openDB none = .ok ∅ := rfl
  obtain ⟨index, sealed, rfl, hclosed, hfiles, hstart⟩ := startServer_eq (p := p) closed_init first
    hopen (· = FreqIndex.init)
    (fun s hs hf => ⟨_, loadFreqIndex_none hs (by rw [hf]; rfl) first.junk .init, rfl⟩)
    none rfl { written := [], draws := 0, saved := [] } ∅
  exact ⟨_, hstart,
    { keys := rfl
      keyFile := nofun
      closed := hclosed
      disk := rfl
      stats := rfl
      recipes := rfl
      indexes := ⟨∅, (freqDesign_liveRel _).init, freqRel_init _,
        Firsts.indexes_nil _ _ fun _ => rfl, rfl⟩ }⟩

theorem lifeStep_upload {u : UploadSession p} {srv' : Server} (hk : s.keys.1 = k)
    (hrun : runSession (p.withKeys k) s.srv (u.withKeys k) = .ok srv') :
    lifeStep p s (.upload u) = .ok { s with srv := srv' } := by
  subst hk
  simp only [lifeStep, hrun, bind, Except.bind, pure, Except.pure]

/-- **An upload** finds and leaves what it does on a server that was never stopped. -/
theorem Alive.upload (h : Alive p k seen srv s) (u : UploadSession p) :
    ∃ s' srv', lifeStep p s (.upload u) = .ok s' ∧
      runSession (p.withKeys k) srv (u.withKeys k) = .ok srv' ∧
      Alive p k (seen ++ u.chunks) srv' s' := by
  obtain ⟨stored, hlive, hrel, htallied⟩ := h.indexes
  obtain ⟨idx, out, hlive', hrun⟩ :=
    runSession_refines (freqDesign_liveRel (p.withKeys k)) s.srv hlive (u.withKeys k)
  obtain ⟨idx', out', hrel', hrun'⟩ :=
    runSession_refines (freqDesign_refines (p.withKeys k)) srv hrel (u.withKeys k)
  have hlogin : login (p.withKeys k) s.srv (u.withKeys k) =
      login (p.withKeys k) srv (u.withKeys k) := by
    rw [login, login, h.disk, h.stats]
  have hsame : naiveSession (p.withKeys k) stored s.srv (u.withKeys k) =
      naiveSession (p.withKeys k) stored srv (u.withKeys k) := by
    rw [naiveSession, naiveSession, hlogin]
  rw [hsame] at hlive' hrun
  have hseen : Tallied (p.withKeys k) seen stored
      (login (p.withKeys k) srv (u.withKeys k)).stats := htallied
  refine ⟨_, _, lifeStep_upload h.keys hrun, hrun', ?_⟩
  exact
    { keys := h.keys
      keyFile := h.keyFile
      closed := h.closed
      disk := rfl
      stats := rfl
      recipes := by rw [h.recipes]
      indexes := ⟨_, hlive', hrel', by
        rw [closeSession_stats, ← chunks_withKeys u k]
        exact Tallied.chunks (n := ⟨stored, login (p.withKeys k) srv (u.withKeys k)⟩) hseen _⟩ }

/-- **A clean restart** changes nothing that an upload finds. -/
theorem Alive.restart (h : Alive p k seen srv s) (htop : p.topThreshold ≤ 2 ^ 32)
    (hnum : seen.length < 2 ^ 64) (hsize : seen.flatten.length < 2 ^ 64) (c : CleanStart) :
    ∃ s', lifeStep p s (.restart c) = .ok s' ∧ Alive p k seen srv s' := by
  obtain ⟨stored, hlive, hrel, htallied⟩ := h.indexes
  obtain ⟨sealed, hstop, hstopped⟩ := stopServer_eq (p := p) h.closed hlive.live
    (hlive.rel.heap.size.trans htop) c.junkAtEnd
  obtain ⟨out, hopen, hout⟩ := InMemoryDatabase.openDB_destroy hlive.rel.outside.fits
  have hkeys : sealed.files .enclaveKey = some k.toBytes := by
    rw [hstopped.keys]
    split
    · rw [h.keys]
    · rename_i hold
      exact h.keyFile (Bool.eq_false_of_not_eq_true hold)
  obtain ⟨index, sealed', hre, hclosed, hfiles, hstart⟩ := startServer_eq (p := p)
    hstopped.closed c hopen s.srv.index.Reloaded
    (fun s' hs' hf => hlive.live.reload (hlive.rel.heap.size.trans htop) hs'
      (by rw [hf, hstopped.sketch]) (by rw [hf, hstopped.heap]) c.junk)
    (some s.srv.stats.counters) hstopped.info s.srv.disk s.srv.recipes
  rw [hkeys, Option.getD_some, Debe.ecallEnclaveInit_toBytes] at hstart
  have hwords : s.srv.stats.Words := by
    rw [h.stats, htallied.stats]
    exact dedupStats_words hnum hsize
  have hstep : lifeStep p s (.restart c) =
      startServer p c (some (InMemoryDatabase.destroy s.srv.out)) sealed s.srv.disk
        s.srv.recipes := by
    simp only [lifeStep, hstop, bind, Except.bind]
  refine ⟨_, hstep.trans hstart, ?_⟩
  exact
    { keys := rfl
      keyFile := fun _ => by rw [hfiles, hkeys]
      closed := hclosed
      disk := h.disk
      stats := hwords.stats_counters.trans h.stats
      recipes := h.recipes
      indexes := ⟨stored, hlive.reloaded hre hout, hrel, htallied⟩ }

/-! ## Whole lives -/

/-- The uploads of a life, under the keys of its first start. -/
def lifeUploads (k : Keys) (events : List (LifeEvent p)) : List (UploadSession (p.withKeys k)) :=
  (events.filterMap LifeEvent.session).map fun u => u.withKeys k

/-- The chunks that the uploads of a life brought. -/
def lifeChunks (events : List (LifeEvent p)) : List Bytes :=
  uploadedChunks (events.filterMap LifeEvent.session)

theorem lifeUploads_append (k : Keys) (events events' : List (LifeEvent p)) :
    lifeUploads k (events ++ events') = lifeUploads k events ++ lifeUploads k events' := by
  simp only [lifeUploads, List.filterMap_append, List.map_append]

theorem lifeChunks_append (events events' : List (LifeEvent p)) :
    lifeChunks (events ++ events') = lifeChunks events ++ lifeChunks events' := by
  simp only [lifeChunks, uploadedChunks, List.filterMap_append, List.flatMap_append]

theorem lifeChunks_upload (u : UploadSession p) : lifeChunks [.upload u] = u.chunks :=
  List.append_nil _

theorem lifeChunks_restart (c : CleanStart) : lifeChunks (p := p) [.restart c] = [] := rfl

/-- **Clean restarts are transparent.**  Uploads, completed or broken off, and clean restarts in
any order: a server of the frequency index that goes through all of them ends with the keys of its
first start, and with the containers, recipes and counters of a server with these keys that gets
the uploads alone.  It takes that the heap is not made larger than its positions can count, and
that the chunks and their bytes can be counted in 64 bits. -/
theorem restarts_transparent (p : Params) (htop : p.topThreshold ≤ 2 ^ 32) (first : CleanStart)
    (events : List (LifeEvent p)) (hnum : (lifeChunks events).length < 2 ^ 64)
    (hsize : (lifeChunks events).flatten.length < 2 ^ 64) :
    ∃ s srv, runLife p first events = .ok s ∧
      runSessions (p.withKeys first.drawn) .init (lifeUploads first.drawn events) = .ok srv ∧
      s.keys.1 = first.drawn ∧ s.srv.disk = srv.disk ∧ s.srv.recipes = srv.recipes ∧
      s.srv.stats = srv.stats := by
  obtain ⟨s₀, hstart, halive₀⟩ := alive_start p first
  obtain ⟨s, hrun, srv, hsessions, halive⟩ := Loops.foldlM_ok (f := lifeStep p) (l := events)
    (s := s₀) (P := fun pre s => ∃ srv,
      runSessions (p.withKeys first.drawn) .init (lifeUploads first.drawn pre) = .ok srv ∧
      Alive p first.drawn (lifeChunks pre) srv s)
    ⟨.init, rfl, halive₀⟩ (by
      rintro pre event rest s rfl ⟨srv, hsessions, halive⟩
      cases event with
      | upload u =>
          obtain ⟨s', srv', hstep, hsession, halive'⟩ := halive.upload u
          refine ⟨s', hstep, srv', ?_, ?_⟩
          · rw [lifeUploads_append, runSessions, List.foldlM_append, ← runSessions, hsessions]
            exact Loops.foldlM_singleton_ok.mpr hsession
          · rw [lifeChunks_append, lifeChunks_upload]
            exact halive'
      | restart c =>
          rw [lifeChunks_append] at hnum hsize
          rw [List.length_append] at hnum
          rw [List.flatten_append, List.length_append] at hsize
          obtain ⟨s', hstep, halive'⟩ := halive.restart htop (by omega) (by omega) c
          refine ⟨s', hstep, srv, ?_, ?_⟩
          · rw [lifeUploads_append]
            exact (List.append_nil (lifeUploads first.drawn pre)).symm ▸ hsessions
          · rw [lifeChunks_append, lifeChunks_restart, List.append_nil]
            exact halive')
  refine ⟨s, srv, ?_, hsessions, halive.keys, halive.disk, halive.recipes, halive.stats⟩
  simp only [runLife, hstart, bind, Except.bind, hrun]

/-- A restart that would draw the keys of one repeated byte. -/
def smallRestart (b : UInt8) : CleanStart := ⟨fun _ => 0, fun _ => b, smallKeys b⟩

/-- The chunk `A`, a restart, and `A` again: it is stored once. -/
theorem restarts_transparent_small :
    ∃ s, runLife smallParams (smallRestart 1) [.upload (smallSession (some ⟨1, 1⟩)),
        .restart (smallRestart 2), .upload (smallSession (some ⟨1, 1⟩))] = .ok s ∧
      s.keys.1 = smallKeys 1 ∧ s.srv.stats.logicalChunkNum = 2 ∧
      s.srv.stats.uniqueChunkNum = 1 := by
  obtain ⟨s, srv, hlife, hrun, hkeys, -, -, hstats⟩ := restarts_transparent smallParams
    (by decide) (smallRestart 1) [.upload (smallSession (some ⟨1, 1⟩)),
      .restart (smallRestart 2), .upload (smallSession (some ⟨1, 1⟩))] (by decide) (by decide)
  have hcounts : (runSessions (smallParams.withKeys (smallKeys 1)) .init
      [(smallSession (some ⟨1, 1⟩)).withKeys (smallKeys 1),
        (smallSession (some ⟨1, 1⟩)).withKeys (smallKeys 1)]).toOption.map
          (fun srv => (srv.stats.logicalChunkNum, srv.stats.uniqueChunkNum)) = some (2, 1) := by
    decide +kernel
  have hrun' : runSessions (smallParams.withKeys (smallKeys 1)) .init
      [(smallSession (some ⟨1, 1⟩)).withKeys (smallKeys 1),
        (smallSession (some ⟨1, 1⟩)).withKeys (smallKeys 1)] = .ok srv := hrun
  rw [hrun'] at hcounts
  have hpair := Option.some.inj hcounts
  exact ⟨s, hlife, hkeys, by rw [hstats]; exact congrArg Prod.fst hpair,
    by rw [hstats]; exact congrArg Prod.snd hpair⟩

end Debe
