import Debe.PlainIndex
import Debe.Deduplication

/-!
# Runs of the Baseline server

Whatever clients send, in any order of messages and whether or not they finish, the containers
hold the payload of the first chunk of every fingerprint, once and in the order of arrival, and
every address of the index selects its own.  The Prototype does not keep this when a session
breaks off: there the last container stays in the enclave.

A recipe says the same about the chunks of its session, provided that nothing comes behind the
end of the recipe.
-/

namespace Debe

open Firsts

/-! ## Containers -/

/-- At address `a` of some container there is `data`. -/
def Contains (cs : List Container) (a : RecipeEntry) (data : Bytes) : Prop :=
  LiesAt cs a data ∧ data.length = a.length.toNat

variable {cs cs' : List Container} {a : RecipeEntry} {data : Bytes}

/-- A restore finds it. -/
theorem Contains.fetched {d : Disk} (hnd : (d.written.map Container.containerID).Nodup)
    (h : Contains d.written a data) :
    ∃ body, containerFile d a.containerName = some body ∧
      (body.drop a.offset.toNat).take a.length.toNat = data := by
  obtain ⟨body, behind, hbody, hdrop⟩ := h.1.fetched hnd
  exact ⟨body, hbody, by rw [hdrop, ← h.2, List.take_left]⟩

/-- The containers handed over and the one being filled. -/
def BaselineUpload.containers (u : BaselineUpload) : List Container :=
  u.disk.written ++ [u.curContainer]

/-- The containers between two chunks: names are drawn one after the other, there is room in the
one being filled, and no empty one was handed over. -/
structure PlainPacking (p : Params) (u : BaselineUpload) : Prop where
  named : Named p (u.containers.map Container.containerID) u.disk.draws
  room : u.curContainer.body.length < maxContainerSize
  filled : ∀ c ∈ u.disk.written, c.body ≠ [] ∧ c.body.length < maxContainerSize

/-- **`SaveChunk`** appends, behind what the current container or an empty one has. -/
theorem baselineSaveChunk_spec {p : Params} {u : BaselineUpload} (h : PlainPacking p u)
    (hdata : data.length ≤ maxChunkSize) :
    Appends data u.containers (baselineSaveChunk p data u).1
        (baselineSaveChunk p data u).2.containers ∧
      data.length = (baselineSaveChunk p data u).1.length.toNat ∧
      PlainPacking p (baselineSaveChunk p data u).2 ∧
      (baselineSaveChunk p data u).2.compressedDataSize = u.compressedDataSize := by
  have hsmall : data.length < 2 ^ 32 := hdata.trans_lt (by decide)
  have hlen : (UInt32.ofNat data.length).toNat = data.length := UInt32.toNat_ofNat_of_lt' hsmall
  unfold baselineSaveChunk
  by_cases hfit : data.length + u.curContainer.body.length < maxContainerSize
  · rw [if_pos hfit]
    have hoffset : (UInt32.ofNat u.curContainer.body.length).toNat =
        u.curContainer.body.length :=
      UInt32.toNat_ofNat_of_lt' (h.room.trans (by decide))
    refine ⟨appends_grow u.disk.written rfl hoffset.symm, hlen.symm, ⟨?_, ?_, h.filled⟩, rfl⟩
    · simpa [BaselineUpload.containers] using h.named
    · dsimp only
      rw [List.length_append]
      omega
  · rw [if_neg hfit]
    refine ⟨appends_next u.containers rfl rfl, hlen.symm, ⟨?_, ?_, ?_⟩, rfl⟩
    · have hnext := h.named.extend 1
      simpa [BaselineUpload.containers, ocallWriteContainer] using hnext
    · exact hdata.trans_lt (by decide)
    · intro c hc
      rcases List.mem_append.mp hc with hc | hc
      · exact h.filled c hc
      · rw [List.mem_singleton.mp hc]
        refine ⟨fun hnil => hfit ?_, h.room⟩
        rw [hnil, List.length_nil, Nat.add_zero]
        exact hdata.trans_lt (by decide)

/-! ## Deduplication -/

section Runs

variable {p : Params}

/-- Where the index stands after the chunks `seen`: its addresses select the payloads of the first
chunks of their fingerprints, and nothing else is in the containers. -/
structure Deduplicated (p : Params) (seen : List Bytes)
    (index : AList (fun _ : Bytes => RecipeEntry)) (cs : List Container) : Prop where
  indexes : Indexes p.crypto.generateHash seen (fun fp => index.lookup fp)
    (fun a c => Contains cs a (payload p c))
  bytes : containerBytes cs = (firsts p.crypto.generateHash seen).flatMap (payload p)

/-- The five counters. -/
def plainStats (counters : PlainCounters) (compressedDataSize : Nat) : Stats where
  logicalChunkNum := counters.logicalChunkNum
  logicalDataSize := counters.logicalDataSize
  uniqueChunkNum := counters.uniqueChunkNum
  uniqueDataSize := counters.uniqueDataSize
  compressedDataSize := compressedDataSize

/-- An upload in progress, after the chunks `seen` of all sessions. -/
structure PlainInv (p : Params) (seen : List Bytes) (u : PlainUpload) : Prop where
  dedup : Deduplicated p seen u.index u.store.containers
  packing : PlainPacking p u.store
  counted : plainStats u.counters u.store.compressedDataSize = dedupStats p seen

variable {seen : List Bytes} {u u' : PlainUpload} {chunk : Bytes}

/-- A recipe that goes on leaves the rest as it is. -/
structure SameStore (u u' : PlainUpload) : Prop where
  index : u'.index = u.index
  store : u'.store = u.store
  counters : u'.counters = u.counters

theorem updateRecipeToFile_same (hrun : updateRecipeToFile u = .ok u') : SameStore u u' := by
  unfold updateRecipeToFile at hrun
  split at hrun
  · cases hrun
    exact ⟨rfl, rfl, rfl⟩
  · cases hrun

theorem plainUpdateFileRecipe_same {chunkAddr : RecipeEntry}
    (hrun : plainUpdateFileRecipe p chunkAddr u = .ok u') : SameStore u u' := by
  unfold plainUpdateFileRecipe at hrun
  dsimp only at hrun
  split at hrun
  · obtain ⟨hindex, hstore, hcounters⟩ := updateRecipeToFile_same hrun
    exact ⟨hindex, hstore, hcounters⟩
  · cases hrun
    exact ⟨rfl, rfl, rfl⟩

/-- The address for a chunk, and the upload with the chunk stored if it was new. -/
def plainLookup (p : Params) (chunk : Bytes) (u : PlainUpload) : RecipeEntry × PlainUpload :=
  match u.index.lookup (p.crypto.generateHash chunk) with
  | some chunkAddr => (chunkAddr, u)
  | none => plainStoreChunk p chunk u

theorem plainLookup_of_some {chunkAddr : RecipeEntry}
    (h : u.index.lookup (p.crypto.generateHash chunk) = some chunkAddr) :
    plainLookup p chunk u = (chunkAddr, u) := by
  rw [plainLookup, h]

theorem plainLookup_of_none (h : u.index.lookup (p.crypto.generateHash chunk) = none) :
    plainLookup p chunk u = plainStoreChunk p chunk u := by
  rw [plainLookup, h]

/-- What `plainChunk` did. -/
theorem plainChunk_inv (hrun : plainChunk p u chunk = .ok u') :
    ∃ u₁, plainUpdateFileRecipe p (plainLookup p chunk u).1 (plainLookup p chunk u).2 = .ok u₁ ∧
      u' = { u₁ with counters := { u₁.counters with
        logicalDataSize := u₁.counters.logicalDataSize + chunk.length
        logicalChunkNum := u₁.counters.logicalChunkNum + 1 } } := by
  obtain ⟨u₁, hrecipe, hrun⟩ := Loops.bind_eq_ok.mp hrun
  cases hrun
  exact ⟨u₁, hrecipe, rfl⟩

/-- The invariant reads three fields. -/
theorem PlainInv.congr (h : PlainInv p seen u) (hsame : SameStore u u') : PlainInv p seen u' where
  dedup := hsame.index ▸ hsame.store ▸ h.dedup
  packing := hsame.store ▸ h.packing
  counted := hsame.store ▸ hsame.counters ▸ h.counted

/-- A chunk at the end of its turn. -/
def PlainUpload.countChunk (u : PlainUpload) (chunk : Bytes) : PlainUpload :=
  { u with counters := { u.counters with
    logicalDataSize := u.counters.logicalDataSize + chunk.length
    logicalChunkNum := u.counters.logicalChunkNum + 1 } }

/-- A chunk with a known fingerprint. -/
theorem PlainInv.again (h : PlainInv p seen u)
    (hmem : p.crypto.generateHash chunk ∈ seen.map p.crypto.generateHash) :
    PlainInv p (seen ++ [chunk]) (u.countChunk chunk) where
  dedup := by
    refine ⟨h.dedup.indexes.again hmem, ?_⟩
    rw [firsts_concat_of_mem hmem]
    exact h.dedup.bytes
  packing := h.packing
  counted := by
    rw [dedupStats_again hmem, ← h.counted]
    rfl

/-- What storing a new chunk does to the containers. -/
theorem plainStoreChunk_saved (h : PlainPacking p u.store) (hsized : Sized chunk) :
    Appends (payload p chunk) u.store.containers (plainStoreChunk p chunk u).1
        (plainStoreChunk p chunk u).2.store.containers ∧
      (payload p chunk).length = (plainStoreChunk p chunk u).1.length.toNat ∧
      PlainPacking p (plainStoreChunk p chunk u).2.store ∧
      (plainStoreChunk p chunk u).2.store.compressedDataSize =
        u.store.compressedDataSize + (payload p chunk).length :=
  baselineSaveChunk_spec
    (u := { u.store with
      compressedDataSize := u.store.compressedDataSize + (payload p chunk).length })
    ⟨h.named, h.room, h.filled⟩ (payload_sized hsized).2

/-- A chunk with a new fingerprint. -/
theorem PlainInv.new (h : PlainInv p seen u) (hsized : Sized chunk)
    (hnew : p.crypto.generateHash chunk ∉ seen.map p.crypto.generateHash) :
    PlainInv p (seen ++ [chunk]) ((plainStoreChunk p chunk u).2.countChunk chunk) := by
  obtain ⟨hsaved, hlength, hpacking, hstored⟩ := plainStoreChunk_saved h.packing hsized
  refine ⟨⟨?_, ?_⟩, hpacking, ?_⟩
  · exact h.dedup.indexes.new hnew (AList.lookup_insert _)
      (fun fp hfp => AList.lookup_insert_ne hfp) ⟨hsaved.lies, hlength⟩
      fun a c hat => ⟨hsaved.keeps a _ hat.1, hat.2⟩
  · rw [firsts_concat_of_not_mem hnew, List.flatMap_append, List.flatMap_singleton,
      ← h.dedup.bytes]
    exact hsaved.bytes
  · rw [dedupStats_new hnew, ← h.counted]
    unfold PlainUpload.countChunk
    rw [hstored]
    rfl

/-- What looking a chunk up does, whether it is known or not. -/
theorem PlainInv.looked (h : PlainInv p seen u) (hsized : Sized chunk) :
    PlainInv p (seen ++ [chunk]) ((plainLookup p chunk u).2.countChunk chunk) := by
  cases hlook : u.index.lookup (p.crypto.generateHash chunk) with
  | none =>
      rw [plainLookup_of_none hlook]
      exact h.new hsized (h.dedup.indexes.lookup_eq_none.mp hlook)
  | some chunkAddr =>
      rw [plainLookup_of_some hlook]
      refine h.again ((h.dedup.indexes.known _).mp ?_)
      rw [hlook, Option.isSome_some]

/-- **A chunk** keeps the invariant. -/
theorem PlainInv.addChunk (h : PlainInv p seen u) (hsized : Sized chunk)
    (hrun : plainChunk p u chunk = .ok u') : PlainInv p (seen ++ [chunk]) u' := by
  obtain ⟨u₁, hrecipe, rfl⟩ := plainChunk_inv hrun
  have hsame := plainUpdateFileRecipe_same hrecipe
  refine (h.looked hsized).congr ⟨hsame.index, hsame.store, ?_⟩
  simp only [PlainUpload.countChunk, hsame.counters]

/-- The chunks of a message, if it is one of chunks. -/
def plainChunks (m : BaselineMsg × (Nat → UInt8)) : List Bytes :=
  match m.1.messageType with
  | .clientUploadChunk => m.1.chunks m.2
  | _ => []

/-- **A message** keeps the invariant. -/
theorem PlainInv.receive {m : BaselineMsg × (Nat → UInt8)} (h : PlainInv p seen u)
    (hsized : ∀ c ∈ plainChunks m, Sized c) (hrun : plainReceive p u m = .ok u') :
    PlainInv p (seen ++ plainChunks m) u' := by
  unfold plainReceive at hrun
  unfold plainChunks at hsized ⊢
  cases hm : m.1.messageType with
  | clientUploadChunk =>
      simp only [hm] at hrun hsized ⊢
      refine Loops.foldlM_keeps_seen (P := fun pre u => PlainInv p (seen ++ pre) u) ?_ ?_ hrun
      · rw [List.append_nil]
        exact ⟨h.dedup, h.packing, h.counted⟩
      · intro pre c rest u₁ u₂ hcut h₁ hbody
        rw [← List.append_assoc]
        exact h₁.addChunk (hsized c (by simp [hcut])) hbody
  | clientUploadRecipe =>
      simp only [hm] at hrun ⊢
      cases hrun
      rw [List.append_nil]
      exact h.congr ⟨rfl, rfl, rfl⟩
  | clientUploadRecipeEnd =>
      simp only [hm] at hrun ⊢
      rw [List.append_nil]
      obtain ⟨u₁, htail, hrun⟩ := Loops.bind_eq_ok.mp hrun
      obtain ⟨u₂, hhead, hrun⟩ := Loops.bind_eq_ok.mp hrun
      cases hrun
      have h₁ : SameStore u u₁ := by
        unfold plainProcessTailBatch at htail
        split at htail
        · exact updateRecipeToFile_same htail
        · cases htail
          exact ⟨rfl, rfl, rfl⟩
      have h₂ : SameStore u₁ u₂ := by
        unfold plainFinalizeRecipe at hhead
        split at hhead
        · cases hhead
          exact ⟨rfl, rfl, rfl⟩
        · cases hhead
      exact ((h.congr h₁).congr h₂).congr ⟨rfl, rfl, rfl⟩

/-! ## Sessions -/

/-- The chunks that a session brings. -/
def PlainSession.chunks (s : PlainSession) : List Bytes :=
  s.msgs.flatMap plainChunks

/-- The chunks that sessions brought, in order. -/
def receivedChunks (sessions : List PlainSession) : List Bytes :=
  sessions.flatMap PlainSession.chunks

/-- The server between sessions, after the chunks `seen`. -/
structure PlainSrvInv (p : Params) (seen : List Bytes) (srv : PlainServer) : Prop where
  dedup : Deduplicated p seen srv.index srv.disk.written
  named : Named p (srv.disk.written.map Container.containerID) srv.disk.draws
  filled : ∀ c ∈ srv.disk.written, c.body ≠ [] ∧ c.body.length < maxContainerSize
  counted : plainStats srv.counters srv.compressedDataSize = dedupStats p seen

theorem plainSrvInv_init (p : Params) : PlainSrvInv p [] .init where
  dedup := ⟨indexes_nil _ _ fun _ => rfl, rfl⟩
  named := ⟨[], rfl, List.Pairwise.nil, by simp⟩
  filled := by simp [PlainServer.init]
  counted := rfl

/-- All chunks are counted. -/
theorem PlainSrvInv.logicalChunkNum {srv : PlainServer} (h : PlainSrvInv p seen srv) :
    srv.counters.logicalChunkNum = seen.length :=
  congrArg Stats.logicalChunkNum h.counted

/-- Every fingerprint is counted once. -/
theorem PlainSrvInv.uniqueChunkNum {srv : PlainServer} (h : PlainSrvInv p seen srv) :
    srv.counters.uniqueChunkNum = (seen.map p.crypto.generateHash).toFinset.card :=
  congrArg Stats.uniqueChunkNum h.counted

/-- A login opens an empty container. -/
theorem PlainSrvInv.login {srv : PlainServer} (h : PlainSrvInv p seen srv) (s : PlainSession) :
    PlainInv p seen (plainLogin p srv s) where
  dedup := by
    refine ⟨h.dedup.indexes.mono fun a c _ hat => ?_, ?_⟩
    · exact ⟨hat.1.mono fun c hc => List.mem_append_left _ hc, hat.2⟩
    · rw [← h.dedup.bytes]
      simp [containerBytes, BaselineUpload.containers, plainLogin]
  packing := by
    refine ⟨?_, (by decide : 0 < maxContainerSize), h.filled⟩
    have hnext := h.named.extend 1
    simpa [BaselineUpload.containers, plainLogin] using hnext
  counted := h.counted

/-- The containers on the disk when the last one was handed over. -/
theorem PlainInv.lastContainer (h : PlainInv p seen u) (hsized : ∀ c ∈ seen, Sized c) :
    Deduplicated p seen (plainLastContainer p u).index (plainLastContainer p u).store.disk.written ∧
      Named p ((plainLastContainer p u).store.disk.written.map Container.containerID)
        (plainLastContainer p u).store.disk.draws ∧
      (∀ c ∈ (plainLastContainer p u).store.disk.written,
        c.body ≠ [] ∧ c.body.length < maxContainerSize) ∧
      plainStats (plainLastContainer p u).counters
        (plainLastContainer p u).store.compressedDataSize = dedupStats p seen := by
  unfold plainLastContainer
  by_cases hbody : u.store.curContainer.body ≠ []
  · rw [if_pos hbody]
    refine ⟨h.dedup, h.packing.named.sublist (List.Sublist.refl _) (Nat.le_succ _), ?_, h.counted⟩
    intro c hc
    rcases List.mem_append.mp hc with hc | hc
    · exact h.packing.filled c hc
    · rw [List.mem_singleton.mp hc]
      exact ⟨hbody, h.packing.room⟩
  · rw [if_neg hbody]
    have hempty : u.store.curContainer = ⟨u.store.curContainer.containerID, []⟩ := by
      rw [← not_not.mp hbody]
    refine ⟨⟨h.dedup.indexes.mono fun a c hc hat => ?_, ?_⟩, ?_, h.packing.filled, h.counted⟩
    · rw [BaselineUpload.containers, hempty] at hat
      exact ⟨hat.1.of_empty (payload_sized (hsized c hc)).1, hat.2⟩
    · rw [← h.dedup.bytes, BaselineUpload.containers, hempty]
      simp [containerBytes]
    · refine h.packing.named.sublist ?_ le_rfl
      rw [BaselineUpload.containers, List.map_append]
      exact List.sublist_append_left _ _

/-- **A session** keeps the server's invariant, however it ends. -/
theorem PlainSrvInv.session {srv srv' : PlainServer} (h : PlainSrvInv p seen srv)
    {s : PlainSession} (hseen : ∀ c ∈ seen, Sized c) (hsized : ∀ c ∈ s.chunks, Sized c)
    (hrun : runPlainSession p srv s = .ok srv') : PlainSrvInv p (seen ++ s.chunks) srv' := by
  obtain ⟨u, hmsgs, hrun⟩ := Loops.bind_eq_ok.mp hrun
  cases hrun
  have hu : PlainInv p (seen ++ s.chunks) u :=
    Loops.foldlM_keeps_seen (P := fun pre u => PlainInv p (seen ++ pre.flatMap plainChunks) u)
      (by rw [List.flatMap_nil, List.append_nil]; exact h.login s) (by
        intro pre m rest u₁ u₂ hcut h₁ hbody
        rw [List.flatMap_append, List.flatMap_singleton, ← List.append_assoc]
        refine h₁.receive (fun c hc => hsized c ?_) hbody
        rw [PlainSession.chunks, hcut]
        exact List.mem_flatMap.mpr ⟨m, by simp, hc⟩) hmsgs
  obtain ⟨hdedup, hnamed, hfilled, hcounted⟩ := hu.lastContainer fun c hc =>
    (List.mem_append.mp hc).elim (hseen c) (hsized c)
  exact ⟨hdedup, hnamed, hfilled, hcounted⟩

/-- Any sessions that run through. -/
theorem runPlainSessions_inv {sessions : List PlainSession} {srv : PlainServer}
    (hsized : ∀ c ∈ receivedChunks sessions, Sized c)
    (hrun : runPlainSessions p .init sessions = .ok srv) :
    PlainSrvInv p (receivedChunks sessions) srv :=
  Loops.foldlM_keeps_seen (P := fun pre srv => PlainSrvInv p (receivedChunks pre) srv)
    (plainSrvInv_init p) (by
      intro pre s rest srv srv' hcut h hbody
      rw [receivedChunks, List.flatMap_append, List.flatMap_singleton]
      refine h.session (fun c hc => hsized c ?_) (fun c hc => hsized c ?_) hbody
      · rw [hcut, receivedChunks, List.flatMap_append]
        exact List.mem_append_left _ hc
      · rw [hcut, receivedChunks]
        exact List.mem_flatMap.mpr ⟨s, by simp, hc⟩) hrun

/-- A message with these chunks, and nothing behind them in the buffer. -/
def smallChunkMsg (chunks : List Bytes) : BaselineMsg × (Nat → UInt8) :=
  ({ messageType := .clientUploadChunk
     currentItemNum := UInt32.ofNat chunks.length
     dataSize := UInt32.ofNat (Records.frames chunks).length
     data := Records.frames chunks }, fun _ => 0)

/-- The end of the recipe for `n` chunks of `size` bytes. -/
def smallRecipeEnd (size n : UInt64) : BaselineMsg × (Nat → UInt8) :=
  ({ messageType := .clientUploadRecipeEnd
     currentItemNum := 0
     dataSize := 16
     data := (FileRecipeHead.mk size n).toBytes }, fun _ => 0)

/-- A session that breaks off behind three chunks, and one that brings two of them again. -/
def smallPlainSessions : List PlainSession :=
  [{ recipePath := [7], virtualRecipeEnd := ⟨0, 0⟩,
      msgs := [smallChunkMsg [[0x41], [0x42], [0x43]]] },
    { recipePath := [8], virtualRecipeEnd := ⟨0, 0⟩,
      msgs := [smallChunkMsg [[0x42], [0x41]], smallRecipeEnd 2 2] }]

/-- What a run of them leaves behind. -/
theorem smallPlainSessions_run :
    ∃ srv, runPlainSessions smallParams .init smallPlainSessions = .ok srv ∧
      FreshNames smallParams srv.disk.draws := by
  have hdraws : (match runPlainSessions smallParams .init smallPlainSessions with
      | .ok srv => srv.disk.draws
      | .error _ => 0) = 3 := by decide +kernel
  cases hrun : runPlainSessions smallParams .init smallPlainSessions with
  | error e => simp [hrun] at hdraws
  | ok srv =>
      rw [hrun] at hdraws
      have hthree : srv.disk.draws = 3 := hdraws
      exact ⟨srv, rfl, freshNames_small (by omega)⟩

theorem smallPlainSessions_sized :
    ∀ c ∈ receivedChunks smallPlainSessions, Sized c := by
  decide +kernel

/-- **Every fingerprint is stored once.**  After any sessions that run through, the containers
that were handed over, one behind the other, are the payloads of the first chunks of their
fingerprints, in the order of arrival; none of the containers is empty or full, and the counters
say what was received, what was new and how much was written. -/
theorem plain_containers_exact (p : Params) (sessions : List PlainSession) {srv : PlainServer}
    (hsized : ∀ c ∈ receivedChunks sessions, Sized c)
    (hrun : runPlainSessions p .init sessions = .ok srv) :
    containerBytes srv.disk.written =
        (firsts p.crypto.generateHash (receivedChunks sessions)).flatMap (payload p) ∧
      (∀ c ∈ srv.disk.written, c.body ≠ [] ∧ c.body.length < maxContainerSize) ∧
      srv.counters.logicalChunkNum = (receivedChunks sessions).length ∧
      srv.counters.logicalDataSize = ((receivedChunks sessions).map List.length).sum ∧
      srv.counters.uniqueChunkNum =
        ((receivedChunks sessions).map p.crypto.generateHash).toFinset.card ∧
      srv.counters.uniqueDataSize =
        ((firsts p.crypto.generateHash (receivedChunks sessions)).map List.length).sum ∧
      srv.compressedDataSize = (containerBytes srv.disk.written).length := by
  have h := runPlainSessions_inv hsized hrun
  refine ⟨h.dedup.bytes, h.filled, h.logicalChunkNum,
    congrArg Stats.logicalDataSize h.counted, h.uniqueChunkNum,
    congrArg Stats.uniqueDataSize h.counted, ?_⟩
  rw [h.dedup.bytes]
  exact congrArg Stats.compressedDataSize h.counted

/-- Five chunks were received and three of them are in the containers. -/
theorem plain_containers_exact_small :
    ∃ srv, runPlainSessions smallParams .init smallPlainSessions = .ok srv ∧
      containerBytes srv.disk.written = [0x41, 0x42, 0x43] ∧
      srv.counters.logicalChunkNum = 5 := by
  obtain ⟨srv, hrun, -⟩ := smallPlainSessions_run
  obtain ⟨hbytes, -, hnum, -⟩ := plain_containers_exact smallParams smallPlainSessions
    smallPlainSessions_sized hrun
  refine ⟨srv, hrun, hbytes.trans ?_, hnum.trans ?_⟩
  · decide +kernel
  · decide +kernel

/-! ## Recipes -/

/-- The addresses that an index gives for chunks. -/
def Addresses (p : Params) (index : AList (fun _ : Bytes => RecipeEntry)) (chunks : List Bytes)
    (addrs : List RecipeEntry) : Prop :=
  List.map some addrs = chunks.map fun c => index.lookup (p.crypto.generateHash c)

/-- An index that grows does not change the addresses it gave. -/
def Grows (index index' : AList (fun _ : Bytes => RecipeEntry)) : Prop :=
  ∀ fp a, index.lookup fp = some a → index'.lookup fp = some a

theorem Grows.trans {i j k : AList (fun _ : Bytes => RecipeEntry)} (h : Grows i j)
    (h' : Grows j k) : Grows i k :=
  fun fp a hlook => h' fp a (h fp a hlook)

theorem Addresses.grow {index index' : AList (fun _ : Bytes => RecipeEntry)}
    {chunks : List Bytes} {addrs : List RecipeEntry} (h : Addresses p index chunks addrs)
    (hgrows : Grows index index') : Addresses p index' chunks addrs := by
  unfold Addresses at h ⊢
  rw [h]
  refine List.map_congr_left fun c hc => ?_
  have hmem : index.lookup (p.crypto.generateHash c) ∈ List.map some addrs :=
    h ▸ List.mem_map_of_mem hc
  obtain ⟨a, _, ha⟩ := List.mem_map.mp hmem
  rw [← ha, hgrows _ a ha.symm]

/-- Looking a chunk up gives its address, and keeps the others. -/
theorem plainLookup_spec (p : Params) (chunk : Bytes) (u : PlainUpload) :
    (plainLookup p chunk u).2.index.lookup (p.crypto.generateHash chunk) =
        some (plainLookup p chunk u).1 ∧
      Grows u.index (plainLookup p chunk u).2.index ∧
      (plainLookup p chunk u).2.inRecipe = u.inRecipe ∧
      (plainLookup p chunk u).2.recipeFile = u.recipeFile ∧
      (plainLookup p chunk u).2.recipeOpen = u.recipeOpen ∧
      (plainLookup p chunk u).2.keyRecipeFile = u.keyRecipeFile := by
  cases hlook : u.index.lookup (p.crypto.generateHash chunk) with
  | some chunkAddr =>
      rw [plainLookup_of_some hlook]
      exact ⟨hlook, fun _ _ h => h, rfl, rfl, rfl, rfl⟩
  | none =>
      rw [plainLookup_of_none hlook]
      refine ⟨AList.lookup_insert _, fun fp a h => ?_, rfl, rfl, rfl, rfl⟩
      have hne : fp ≠ p.crypto.generateHash chunk := by
        rintro rfl
        rw [hlook] at h
        cases h
      exact (AList.lookup_insert_ne hne).trans h

/-- The recipe of a session that has brought `chunks`: whole batches are in the file, and fewer
entries than a batch wait. -/
structure RecipeKept (p : Params) (head : FileRecipeHead) (chunks : List Bytes)
    (u : PlainUpload) : Prop where
  recipeOpen : u.recipeOpen = true
  addresses : ∃ done, u.recipeFile = head.toBytes ++ entriesToBytes done ∧
    p.sendRecipeBatchSize ∣ done.length ∧ Addresses p u.index chunks (done ++ u.inRecipe)
  waiting : u.inRecipe.length < p.sendRecipeBatchSize

variable {head : FileRecipeHead} {chunks : List Bytes}

/-- **A chunk** is put into the recipe. -/
theorem RecipeKept.addChunk (h : RecipeKept p head chunks u) (chunk : Bytes) :
    ∃ u', plainChunk p u chunk = .ok u' ∧ RecipeKept p head (chunks ++ [chunk]) u' ∧
      Grows u.index u'.index ∧ u'.keyRecipeFile = u.keyRecipeFile := by
  obtain ⟨haddr, hgrows, hwait, hfile, hopen, hkeys⟩ := plainLookup_spec p chunk u
  obtain ⟨done, hdone, hdvd, haddrs⟩ := h.addresses
  have hlt := h.waiting
  let r := plainLookup p chunk u
  have hnext : Addresses p r.2.index (chunks ++ [chunk]) (done ++ (u.inRecipe ++ [r.1])) := by
    have hold := haddrs.grow hgrows
    unfold Addresses at hold ⊢
    rw [← List.append_assoc, List.map_append, hold, List.map_append, List.map_singleton,
      List.map_singleton, haddr]
  by_cases hfull : (u.inRecipe ++ [r.1]).length % p.sendRecipeBatchSize = 0
  · have hlen : (u.inRecipe ++ [r.1]).length = p.sendRecipeBatchSize := by
      have hpos : 0 < (u.inRecipe ++ [r.1]).length := by simp
      have hle := Nat.le_of_dvd hpos (Nat.dvd_of_mod_eq_zero hfull)
      rw [List.length_append, List.length_singleton] at hle ⊢
      omega
    have hrecipe : plainUpdateFileRecipe p r.1 r.2 = .ok { r.2 with
        inRecipe := []
        recipeFile := u.recipeFile ++ entriesToBytes (u.inRecipe ++ [r.1]) } := by
      have hopen' : r.2.recipeOpen = true := hopen.trans h.recipeOpen
      have hwait' : r.2.inRecipe = u.inRecipe := hwait
      have hfile' : r.2.recipeFile = u.recipeFile := hfile
      unfold plainUpdateFileRecipe updateRecipeToFile
      simp only [hwait', hfull, hopen', hfile', if_true]
    refine ⟨_, Loops.bind_eq_ok.mpr ⟨_, hrecipe, rfl⟩, ⟨hopen.trans h.recipeOpen, ?_,
      p.sendRecipeBatchSize_pos⟩, hgrows, hkeys⟩
    refine ⟨done ++ (u.inRecipe ++ [r.1]), ?_, ?_, ?_⟩
    · simp [hdone, entriesToBytes]
    · rw [List.length_append, hlen]
      exact Nat.dvd_add hdvd (Nat.dvd_refl _)
    · rw [List.append_nil]
      exact hnext
  · have hrecipe : plainUpdateFileRecipe p r.1 r.2 =
        .ok { r.2 with inRecipe := u.inRecipe ++ [r.1] } := by
      have hwait' : r.2.inRecipe = u.inRecipe := hwait
      unfold plainUpdateFileRecipe
      simp only [hwait', hfull, if_false]
    refine ⟨_, Loops.bind_eq_ok.mpr ⟨_, hrecipe, rfl⟩, ⟨hopen.trans h.recipeOpen, ?_, ?_⟩,
      hgrows, hkeys⟩
    · exact ⟨done, hfile.trans hdone, hdvd, hnext⟩
    · refine Nat.lt_of_le_of_ne (by rw [List.length_append]; exact hlt) fun heq => hfull ?_
      rw [← Nat.mod_self p.sendRecipeBatchSize]
      exact congrArg (· % p.sendRecipeBatchSize) heq

/-- What a message brings to the key recipe file. -/
def keyRecipeData (m : BaselineMsg × (Nat → UInt8)) : Bytes :=
  if m.1.messageType = .clientUploadRecipe then m.1.data else []

/-- **A message** that is not the end of the recipe. -/
theorem RecipeKept.receive {m : BaselineMsg × (Nat → UInt8)} (h : RecipeKept p head chunks u)
    (hm : m.1.messageType ≠ .clientUploadRecipeEnd) :
    ∃ u', plainReceive p u m = .ok u' ∧ RecipeKept p head (chunks ++ plainChunks m) u' ∧
      Grows u.index u'.index ∧ u'.keyRecipeFile = u.keyRecipeFile ++ keyRecipeData m := by
  unfold plainReceive plainChunks keyRecipeData
  cases hmsg : m.1.messageType with
  | clientUploadChunk =>
      obtain ⟨u', hrun, hkept, hgrows, hkeys⟩ := Loops.foldlM_ok
        (f := plainChunk p) (l := m.1.chunks m.2)
        (s := { u with counters := { u.counters with
          totalRecvDataSize := u.counters.totalRecvDataSize + m.1.dataSize.toNat
          totalBatchNum := u.counters.totalBatchNum + 1 } })
        (P := fun pre u' => RecipeKept p head (chunks ++ pre) u' ∧ Grows u.index u'.index ∧
          u'.keyRecipeFile = u.keyRecipeFile)
        ⟨by rw [List.append_nil]; exact ⟨h.recipeOpen, h.addresses, h.waiting⟩,
          fun _ _ hlook => hlook, rfl⟩ (by
          rintro pre c rest u₁ - ⟨hkept, hgrows, hkeys⟩
          obtain ⟨u₂, hrun, hkept', hgrows', hkeys'⟩ := hkept.addChunk c
          rw [← List.append_assoc]
          exact ⟨u₂, hrun, hkept', hgrows.trans hgrows', hkeys'.trans hkeys⟩)
      exact ⟨u', hrun, hkept, hgrows, by simp [hkeys]⟩
  | clientUploadRecipe =>
      refine ⟨_, rfl, ?_, fun _ _ hlook => hlook, rfl⟩
      rw [List.append_nil]
      exact ⟨h.recipeOpen, h.addresses, h.waiting⟩
  | clientUploadRecipeEnd => exact absurd hmsg hm

/-- The head that an end of the recipe brings. -/
def endHead (m : BaselineMsg × (Nat → UInt8)) : FileRecipeHead :=
  FileRecipeHead.ofBytes (memBytes (recvMemory m.1.data m.2) 0 fileRecipeHeadSize)

/-- **The end of the recipe** writes the entries that wait, and the head in its place. -/
theorem RecipeKept.finish {m : BaselineMsg × (Nat → UInt8)} (h : RecipeKept p head chunks u)
    (hm : m.1.messageType = .clientUploadRecipeEnd) :
    ∃ u' addrs, plainReceive p u m = .ok u' ∧ Addresses p u'.index chunks addrs ∧
      u'.recipeFile = (endHead m).toBytes ++ entriesToBytes addrs ∧
      Grows u.index u'.index ∧ u'.keyRecipeFile = u.keyRecipeFile := by
  obtain ⟨done, hdone, -, haddrs⟩ := h.addresses
  let written := u.recipeFile ++ entriesToBytes u.inRecipe
  obtain ⟨u₁, htail, hfile₁, hopen₁, hindex₁, hkeys₁⟩ : ∃ u₁, plainProcessTailBatch u = .ok u₁ ∧
      u₁.recipeFile = written ∧ u₁.recipeOpen = true ∧ u₁.index = u.index ∧
      u₁.keyRecipeFile = u.keyRecipeFile := by
    unfold plainProcessTailBatch updateRecipeToFile
    by_cases hnil : u.inRecipe = []
    · refine ⟨u, by simp [hnil], ?_, h.recipeOpen, rfl, rfl⟩
      simp [written, hnil, entriesToBytes]
    · exact ⟨_, (if_pos hnil).trans (if_pos h.recipeOpen), rfl, h.recipeOpen, rfl, rfl⟩
  have hdrop : written.drop fileRecipeHeadSize = entriesToBytes (done ++ u.inRecipe) := by
    have hcut : written = head.toBytes ++ entriesToBytes (done ++ u.inRecipe) := by
      simp only [written, hdone, entriesToBytes, List.flatMap_append, List.append_assoc]
    rw [hcut, ← head.length_toBytes, List.drop_left]
  have hhead : plainFinalizeRecipe (endHead m) u₁ = .ok { u₁ with
      recipeFile := (endHead m).toBytes ++ u₁.recipeFile.drop fileRecipeHeadSize
      recipeOpen := false } := if_pos hopen₁
  have hrun : plainReceive p u m = .ok { u₁ with
      recipeFile := (endHead m).toBytes ++ u₁.recipeFile.drop fileRecipeHeadSize
      recipeOpen := false
      uploadDataSize := (endHead m).fileSize } := by
    simp only [plainReceive, hm]
    exact Loops.bind_eq_ok.mpr ⟨u₁, htail, Loops.bind_eq_ok.mpr ⟨_, hhead, rfl⟩⟩
  refine ⟨_, done ++ u.inRecipe, hrun, hindex₁ ▸ haddrs, ?_, fun _ _ hlook => hindex₁ ▸ hlook,
    hkeys₁⟩
  dsimp only
  rw [hfile₁, hdrop]

/-- Nothing comes behind the end of the recipe. -/
def PlainSession.Orderly (s : PlainSession) : Prop :=
  ∀ m ∈ s.msgs.dropLast, m.1.messageType ≠ .clientUploadRecipeEnd

/-- The head that ends the recipe, if the session gets that far. -/
def PlainSession.recipeEnd (s : PlainSession) : Option FileRecipeHead :=
  s.msgs.getLast?.bind fun m =>
    if m.1.messageType = .clientUploadRecipeEnd then some (endHead m) else none

/-- The recipe file of a session whose chunks have these addresses: all of them behind the head,
or those of the whole batches behind what was there at login. -/
def PlainSession.recipe (p : Params) (s : PlainSession) (addrs : List RecipeEntry) : Bytes :=
  match s.recipeEnd with
  | some head => head.toBytes ++ entriesToBytes addrs
  | none => s.virtualRecipeEnd.toBytes ++ entriesToBytes
      (addrs.take (addrs.length / p.sendRecipeBatchSize * p.sendRecipeBatchSize))

/-- An orderly session is a run of other messages, and the end of the recipe if it gets there. -/
theorem PlainSession.Orderly.cut {s : PlainSession} (h : s.Orderly) :
    ∃ body, (∀ m ∈ body, m.1.messageType ≠ .clientUploadRecipeEnd) ∧
      ((s.msgs = body ∧ s.recipeEnd = none) ∨
        ∃ m, m.1.messageType = .clientUploadRecipeEnd ∧ s.msgs = body ++ [m] ∧
          s.recipeEnd = some (endHead m)) := by
  rcases List.eq_nil_or_concat s.msgs with hnil | ⟨init, last, hcut⟩
  · exact ⟨[], by simp, .inl ⟨hnil, by simp [PlainSession.recipeEnd, hnil]⟩⟩
  · unfold PlainSession.Orderly at h
    rw [hcut, List.concat_eq_append, List.dropLast_concat] at h
    rw [List.concat_eq_append] at hcut
    by_cases hlast : last.1.messageType = .clientUploadRecipeEnd
    · exact ⟨init, h, .inr ⟨last, hlast, hcut, by simp [PlainSession.recipeEnd, hcut, hlast]⟩⟩
    · refine ⟨init ++ [last], ?_, .inl ⟨hcut, by simp [PlainSession.recipeEnd, hcut, hlast]⟩⟩
      intro m hm
      rcases List.mem_append.mp hm with hm | hm
      · exact h m hm
      · rwa [List.mem_singleton.mp hm]

/-- A run of messages before the end of the recipe. -/
theorem RecipeKept.messages {msgs : List (BaselineMsg × (Nat → UInt8))}
    (h : RecipeKept p head [] u)
    (hmsgs : ∀ m ∈ msgs, m.1.messageType ≠ .clientUploadRecipeEnd) :
    ∃ u', msgs.foldlM (plainReceive p) u = .ok u' ∧
      RecipeKept p head (msgs.flatMap plainChunks) u' ∧ Grows u.index u'.index ∧
      u'.keyRecipeFile = u.keyRecipeFile ++ msgs.flatMap keyRecipeData :=
  Loops.foldlM_ok (P := fun pre u' => RecipeKept p head (pre.flatMap plainChunks) u' ∧
      Grows u.index u'.index ∧ u'.keyRecipeFile = u.keyRecipeFile ++ pre.flatMap keyRecipeData)
    ⟨h, fun _ _ hlook => hlook, by simp⟩ (by
      rintro pre m rest u₁ hcut ⟨hkept, hgrows, hkeys⟩
      obtain ⟨u₂, hrun, hkept', hgrows', hkeys'⟩ := hkept.receive (hmsgs m (by simp [hcut]))
      refine ⟨u₂, hrun, ?_, hgrows.trans hgrows', ?_⟩
      · rwa [List.flatMap_append, List.flatMap_singleton]
      · rw [hkeys', hkeys, List.flatMap_append, List.flatMap_singleton, List.append_assoc])

/-- Fewer entries than a batch behind whole batches. -/
theorem take_batches {done waiting : List RecipeEntry} {n : Nat} (hdvd : n ∣ done.length)
    (hlt : waiting.length < n) :
    (done ++ waiting).take ((done ++ waiting).length / n * n) = done := by
  obtain ⟨k, hk⟩ := hdvd
  have hdiv : (done ++ waiting).length / n = k := by
    rw [List.length_append, hk, Nat.mul_add_div (by omega), Nat.div_eq_of_lt hlt, Nat.add_zero]
  rw [hdiv, Nat.mul_comm, ← hk, List.take_left]

/-- **An orderly session** runs through; of the files it touches its own recipe. -/
theorem runPlainSession_recipe (p : Params) (srv : PlainServer) {s : PlainSession}
    (hs : s.Orderly) :
    ∃ srv' addrs, runPlainSession p srv s = .ok srv' ∧ Grows srv.index srv'.index ∧
      Addresses p srv'.index s.chunks addrs ∧
      srv'.recipes = srv.recipes.insert s.recipePath (s.recipe p addrs) ∧
      srv'.keyRecipes = srv.keyRecipes.insert s.recipePath (s.msgs.flatMap keyRecipeData) := by
  have hlogin : RecipeKept p s.virtualRecipeEnd [] (plainLogin p srv s) :=
    ⟨rfl, ⟨[], (List.append_nil _).symm, Nat.dvd_zero _, rfl⟩, p.sendRecipeBatchSize_pos⟩
  have hlast : ∀ u : PlainUpload, (plainLastContainer p u).index = u.index ∧
      (plainLastContainer p u).recipeFile = u.recipeFile ∧
      (plainLastContainer p u).keyRecipeFile = u.keyRecipeFile := by
    intro u
    unfold plainLastContainer
    split
    · exact ⟨rfl, rfl, rfl⟩
    · exact ⟨rfl, rfl, rfl⟩
  obtain ⟨body, hbody, hcut⟩ := hs.cut
  obtain ⟨u, hrun, hkept, hgrows, hkeys⟩ := hlogin.messages hbody
  have hkeys' : u.keyRecipeFile = body.flatMap keyRecipeData :=
    hkeys.trans (List.nil_append _)
  rcases hcut with ⟨hmsgs, hend⟩ | ⟨m, hm, hmsgs, hend⟩
  · obtain ⟨hindex, hfile, hkeyfile⟩ := hlast u
    obtain ⟨done, hdone, hdvd, haddrs⟩ := hkept.addresses
    refine ⟨_, done ++ u.inRecipe, Loops.bind_eq_ok.mpr ⟨u, hmsgs ▸ hrun, rfl⟩, ?_, ?_, ?_, ?_⟩
    · exact hindex ▸ hgrows
    · rw [PlainSession.chunks, hmsgs]
      exact hindex ▸ haddrs
    · dsimp only
      rw [hfile, hdone, PlainSession.recipe, hend]
      dsimp only
      rw [take_batches hdvd hkept.waiting]
    · dsimp only
      rw [hkeyfile, hkeys', hmsgs]
  · obtain ⟨u', addrs, hfinish, haddrs, hrecipe, hgrows', hkeys₁⟩ := hkept.finish hm
    obtain ⟨hindex, hfile, hkeyfile⟩ := hlast u'
    have hall : s.msgs.foldlM (plainReceive p) (plainLogin p srv s) = .ok u' := by
      rw [hmsgs, List.foldlM_append]
      exact Loops.bind_eq_ok.mpr ⟨u, hrun, Loops.foldlM_singleton_ok.mpr hfinish⟩
    refine ⟨_, addrs, Loops.bind_eq_ok.mpr ⟨u', hall, rfl⟩, ?_, ?_, ?_, ?_⟩
    · exact hindex ▸ hgrows.trans hgrows'
    · have hnone : plainChunks m = [] := by simp [plainChunks, hm]
      rw [PlainSession.chunks, hmsgs, List.flatMap_append, List.flatMap_singleton, hnone,
        List.append_nil]
      exact hindex ▸ haddrs
    · dsimp only
      rw [hfile, hrecipe, PlainSession.recipe, hend]
    · have hnone : keyRecipeData m = [] := by simp [keyRecipeData, hm]
      dsimp only
      rw [hkeyfile, hkeys₁, hkeys', hmsgs, List.flatMap_append, List.flatMap_singleton, hnone,
        List.append_nil]

/-- The files of the sessions so far that were not overwritten since. -/
def PlainRecipesRight (p : Params) (sessions : List PlainSession) (srv : PlainServer) : Prop :=
  ∀ pre s post, sessions = pre ++ s :: post → (∀ t ∈ post, t.recipePath ≠ s.recipePath) →
    ∃ addrs, Addresses p srv.index s.chunks addrs ∧
      srv.recipes.lookup s.recipePath = some (s.recipe p addrs) ∧
      srv.keyRecipes.lookup s.recipePath = some (s.msgs.flatMap keyRecipeData)

/-- One more session. -/
theorem PlainRecipesRight.append {sessions : List PlainSession} {srv srv' : PlainServer}
    (h : PlainRecipesRight p sessions srv) {t : PlainSession} {addrs : List RecipeEntry}
    (hgrows : Grows srv.index srv'.index) (haddrs : Addresses p srv'.index t.chunks addrs)
    (hrecipes : srv'.recipes = srv.recipes.insert t.recipePath (t.recipe p addrs))
    (hkeys : srv'.keyRecipes =
      srv.keyRecipes.insert t.recipePath (t.msgs.flatMap keyRecipeData)) :
    PlainRecipesRight p (sessions ++ [t]) srv' := by
  intro pre s post hcut hlater
  rcases List.eq_nil_or_concat post with rfl | ⟨post', t', rfl⟩
  · obtain ⟨rfl, rfl⟩ : sessions = pre ∧ t = s := by
      simpa using List.append_inj' hcut rfl
    exact ⟨addrs, haddrs, by rw [hrecipes, AList.lookup_insert],
      by rw [hkeys, AList.lookup_insert]⟩
  · have hcut' : sessions ++ [t] = (pre ++ s :: post') ++ [t'] := by simpa using hcut
    obtain ⟨hpre, rfl⟩ : sessions = pre ++ s :: post' ∧ t = t' := by
      simpa using List.append_inj' hcut' rfl
    obtain ⟨addrs₀, haddrs₀, hrecipe, hkey⟩ :=
      h pre s post' hpre fun t' ht' => hlater t' (by simp [ht'])
    have hne : s.recipePath ≠ t.recipePath := (hlater t (by simp)).symm
    refine ⟨addrs₀, haddrs₀.grow hgrows, ?_, ?_⟩
    · rw [hrecipes, AList.lookup_insert_ne hne, hrecipe]
    · rw [hkeys, AList.lookup_insert_ne hne, hkey]

/-- Any orderly sessions. -/
theorem runPlainSessions_recipes (p : Params) {sessions : List PlainSession}
    (horderly : ∀ s ∈ sessions, s.Orderly) :
    ∃ srv, runPlainSessions p .init sessions = .ok srv ∧ PlainRecipesRight p sessions srv :=
  Loops.foldlM_ok (P := fun pre srv => PlainRecipesRight p pre srv)
    (by intro pre s post hcut; simp at hcut) (by
      rintro pre t rest srv hcut hright
      obtain ⟨srv', addrs, hrun, hgrows, haddrs, hrecipes, hkeys⟩ :=
        runPlainSession_recipe p srv (horderly t (by simp [hcut]))
      exact ⟨srv', hrun, hright.append hgrows haddrs hrecipes hkeys⟩)

/-- In the container file of its name, `a` selects the payload of a received chunk with the
fingerprint of `chunk`. -/
def PlainRestorable (p : Params) (d : Disk) (received : List Bytes) (chunk : Bytes)
    (a : RecipeEntry) : Prop :=
  ∃ c ∈ received, p.crypto.generateHash c = p.crypto.generateHash chunk ∧
    ∃ body, containerFile d a.containerName = some body ∧
      (body.drop a.offset.toNat).take a.length.toNat = payload p c

theorem PlainSrvInv.restorable {srv : PlainServer} (h : PlainSrvInv p seen srv)
    (hfresh : FreshNames p srv.disk.draws) {addrs : List RecipeEntry}
    (haddrs : Addresses p srv.index chunks addrs) :
    List.Forall₂ (PlainRestorable p srv.disk seen) chunks addrs :=
  forall₂_of_map_some haddrs fun c a hlook => by
    obtain ⟨c', hc', hhash, hat⟩ := h.dedup.indexes.placed _ a hlook
    exact ⟨c', mem_of_mem_firsts hc', hhash, hat.fetched (h.named.nodup hfresh)⟩

end Runs

end Debe
