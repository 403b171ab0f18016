import Debe.Deduplication

/-!
# What the Prototype keeps

The frequency index follows the specification chunk by chunk, so what a run of sessions stores and
counts is read off the specification.  The counters are right after any sessions.  The containers
hold a record of every fingerprint, once and in the order of arrival, as long as every session
ends its recipe: one that breaks off takes its last container with it.
-/

namespace Debe

open Firsts

variable {p : Params} {seen : List Bytes} {chunk : Bytes} {a : RecipeEntry} {u : Upload}

/-! ## One chunk -/

/-- The containers handed over and the one being filled. -/
def Upload.containers (u : Upload) : List Container :=
  u.disk.written ++ [u.client.pending]

/-- The chunk lies at `a`, encrypted under some IV. -/
def KeptAt (p : Params) (cs : List Container) (a : RecipeEntry) (chunk : Bytes) : Prop :=
  ∃ iv, LiesAt cs a (storedRecord p chunk iv) ∧ a.length.toNat = (payload p chunk).length

theorem KeptAt.mono {cs cs' : List Container} (h : KeptAt p cs a chunk)
    (hkeep : ∀ data, data ≠ [] → LiesAt cs a data → LiesAt cs' a data) :
    KeptAt p cs' a chunk := by
  obtain ⟨iv, hat, hlen⟩ := h
  refine ⟨iv, hkeep _ ?_ hat, hlen⟩
  -- behind the ciphertext there is always the IV
  rw [← List.length_pos_iff, length_storedRecord]
  exact Nat.lt_of_lt_of_le (by decide) (Nat.le_add_left _ _)

/-- `SaveChunk` appends the chunk and the IV. -/
theorem saveChunk_appends (p : Params) {data : Bytes}
    (hroom : u.client.inContainer.length < maxContainerSize) :
    Appends (data ++ u.client.iv.toBytes) u.containers (saveChunk p data u).1
      (saveChunk p data u).2.containers := by
  unfold saveChunk
  by_cases hfit : cryptoBlockSize + data.length + u.client.inContainer.length < maxContainerSize
  · rw [if_pos hfit]
    have hoffset : (UInt32.ofNat u.client.inContainer.length).toNat =
        u.client.inContainer.length :=
      UInt32.toNat_ofNat_of_lt' (hroom.trans (by decide))
    exact appends_grow u.disk.written rfl hoffset.symm
  · rw [if_neg hfit]
    exact appends_next u.containers rfl rfl

/-- **A new chunk** is appended as a record. -/
theorem storeUnique_appends (p : Params) (hchunk : chunk.length ≤ maxChunkSize)
    (hroom : u.client.inContainer.length < maxContainerSize) :
    Appends (storedRecord p chunk (pickNewIV u.client.iv)) u.containers (storeUnique p chunk u).1
        (storeUnique p chunk u).2.containers ∧
      (storeUnique p chunk u).1.length.toNat = (payload p chunk).length ∧
      (storeUnique p chunk u).2.client.inContainer.length < maxContainerSize := by
  refine ⟨?_, (processUniqueChunk_address p hchunk).2.1,
    (processUniqueChunk_spec p hchunk hroom).1.room⟩
  exact saveChunk_appends p (u := { u with
    client := { u.client with iv := pickNewIV u.client.iv }
    stats := { u.stats with
      compressedDataSize := u.stats.compressedDataSize + (payload p chunk).length } }) hroom

/-- The counters of a new chunk. -/
theorem storeUnique_stats (p : Params) (chunk : Bytes) (u : Upload) :
    (storeUnique p chunk u).2.stats = { u.stats with
      uniqueChunkNum := u.stats.uniqueChunkNum + 1
      uniqueDataSize := u.stats.uniqueDataSize + chunk.length
      compressedDataSize := u.stats.compressedDataSize + (payload p chunk).length } := by
  unfold storeUnique processUniqueChunk saveChunk
  dsimp only
  split <;> rfl

/-- The recipe leaves the containers alone. -/
theorem recordChunk_containers (p : Params) (fp : Bytes) (n : Nat) (a : RecipeEntry)
    (u : Upload) : (recordChunk p fp n a u).containers = u.containers ∧
      (recordChunk p fp n a u).client.inContainer = u.client.inContainer := by
  unfold recordChunk updateFileRecipe flushRecipe
  dsimp only
  split <;> exact ⟨rfl, rfl⟩

theorem recordChunk_stats (p : Params) (fp : Bytes) (n : Nat) (a : RecipeEntry) (u : Upload) :
    (recordChunk p fp n a u).stats = { u.stats with
      logicalDataSize := u.stats.logicalDataSize + n
      logicalChunkNum := u.stats.logicalChunkNum + 1 } := by
  unfold recordChunk updateFileRecipe
  rfl

/-! ## The specification's run -/

/-- The map and the counters after the chunks `seen`. -/
structure Tallied (p : Params) (seen : List Bytes)
    (stored : AList (fun _ : Bytes => RecipeEntry)) (stats : Stats) : Prop where
  indexes : Indexes p.crypto.generateHash seen (fun fp => stored.lookup fp) (fun _ _ => True)
  stats : stats = dedupStats p seen

/-- The map and the containers after the chunks `seen`: at the address of a fingerprint there is
its first chunk, and nothing but these records is in the containers. -/
structure StoredOnce (p : Params) (seen : List Bytes)
    (stored : AList (fun _ : Bytes => RecipeEntry)) (cs : List Container) : Prop where
  indexes : Indexes p.crypto.generateHash seen (fun fp => stored.lookup fp) (KeptAt p cs)
  records : ∃ records, List.Forall₂ (fun c r => ∃ iv, r = storedRecord p c iv)
    (firsts p.crypto.generateHash seen) records ∧ containerBytes cs = records.flatten

variable {n : Naive}

/-- A chunk is counted. -/
theorem Tallied.step (h : Tallied p seen n.stored n.upload.stats) (chunk : Bytes) :
    Tallied p (seen ++ [chunk]) (naiveChunk p n chunk).stored
      (naiveChunk p n chunk).upload.stats := by
  cases hlook : n.stored.lookup (p.crypto.generateHash chunk) with
  | some a =>
      have hmem : p.crypto.generateHash chunk ∈ seen.map p.crypto.generateHash :=
        (h.indexes.known _).mp (by rw [hlook, Option.isSome_some])
      rw [naiveChunk_reuse hlook]
      refine ⟨h.indexes.again hmem, ?_⟩
      rw [dedupStats_again hmem, recordChunk_stats, h.stats]
  | none =>
      have hnew := h.indexes.lookup_eq_none.mp hlook
      rw [naiveChunk_store hlook]
      refine ⟨h.indexes.new hnew (AList.lookup_insert _)
        (fun fp hfp => AList.lookup_insert_ne hfp) trivial fun _ _ _ => trivial, ?_⟩
      rw [dedupStats_new hnew, recordChunk_stats, storeUnique_stats, h.stats]

/-- A chunk is stored if it is new. -/
theorem StoredOnce.step (h : StoredOnce p seen n.stored n.upload.containers)
    (hroom : n.upload.client.inContainer.length < maxContainerSize)
    (hchunk : chunk.length ≤ maxChunkSize) :
    StoredOnce p (seen ++ [chunk]) (naiveChunk p n chunk).stored
        (naiveChunk p n chunk).upload.containers ∧
      (naiveChunk p n chunk).upload.client.inContainer.length < maxContainerSize := by
  cases hlook : n.stored.lookup (p.crypto.generateHash chunk) with
  | some a =>
      have hmem : p.crypto.generateHash chunk ∈ seen.map p.crypto.generateHash :=
        (h.indexes.known _).mp (by rw [hlook, Option.isSome_some])
      obtain ⟨hcs, hin⟩ := recordChunk_containers p (p.crypto.generateHash chunk) chunk.length a
        n.upload
      rw [naiveChunk_reuse hlook]
      dsimp only
      rw [hcs, hin]
      refine ⟨⟨h.indexes.again hmem, ?_⟩, hroom⟩
      rw [firsts_concat_of_mem hmem]
      exact h.records
  | none =>
      have hnew := h.indexes.lookup_eq_none.mp hlook
      obtain ⟨hstore, hlen, hroom'⟩ := storeUnique_appends p hchunk hroom
      obtain ⟨hcs, hin⟩ := recordChunk_containers p (p.crypto.generateHash chunk) chunk.length
        (storeUnique p chunk n.upload).1 (storeUnique p chunk n.upload).2
      rw [naiveChunk_store hlook]
      dsimp only
      rw [hcs, hin]
      refine ⟨⟨?_, ?_⟩, hroom'⟩
      · exact h.indexes.new hnew (AList.lookup_insert _)
          (fun fp hfp => AList.lookup_insert_ne hfp) ⟨_, hstore.lies, hlen⟩
          fun a c hat => hat.mono fun data _ hdata => hstore.keeps a data hdata
      · obtain ⟨records, hrecords, hbytes⟩ := h.records
        refine ⟨records ++ [storedRecord p chunk (pickNewIV n.upload.client.iv)], ?_, ?_⟩
        · rw [firsts_concat_of_not_mem hnew]
          exact List.rel_append hrecords (List.Forall₂.cons ⟨_, rfl⟩ List.Forall₂.nil)
        · rw [hstore.bytes, hbytes, List.flatten_append, List.flatten_singleton]

/-- A run of chunks. -/
theorem Tallied.chunks (h : Tallied p seen n.stored n.upload.stats) (chunks : List Bytes) :
    Tallied p (seen ++ chunks) (naiveChunks p n chunks).stored
      (naiveChunks p n chunks).upload.stats := by
  induction chunks generalizing seen n with
  | nil => rwa [List.append_nil]
  | cons c cs ih =>
      rw [List.append_cons, naiveChunks, List.foldl_cons, ← naiveChunks]
      exact ih (h.step c)

theorem StoredOnce.chunks (h : StoredOnce p seen n.stored n.upload.containers)
    (hroom : n.upload.client.inContainer.length < maxContainerSize) {chunks : List Bytes}
    (hchunks : ∀ c ∈ chunks, c.length ≤ maxChunkSize) :
    StoredOnce p (seen ++ chunks) (naiveChunks p n chunks).stored
        (naiveChunks p n chunks).upload.containers ∧
      (naiveChunks p n chunks).upload.client.inContainer.length < maxContainerSize := by
  induction chunks generalizing seen n with
  | nil => exact ⟨by rwa [List.append_nil], hroom⟩
  | cons c cs ih =>
      rw [List.forall_mem_cons] at hchunks
      obtain ⟨hstored, hroom'⟩ := h.step hroom hchunks.1
      rw [List.append_cons, naiveChunks, List.foldl_cons, ← naiveChunks]
      exact ih hstored hroom' hchunks.2

/-! ## Sessions -/

variable {stored : AList (fun _ : Bytes => RecipeEntry)} {srv srv' : Server}

/-- The end of a session leaves the counters alone. -/
theorem closeSession_stats (p : Params) (recipeEnd : Option FileRecipeHead) (u : Upload) :
    (closeSession p recipeEnd u).stats = u.stats := by
  have hlast : ∀ u : Upload, (processLastContainer p u).stats = u.stats := by
    intro u
    unfold processLastContainer
    split <;> rfl
  cases recipeEnd with
  | none => exact hlast u
  | some head => exact hlast _

/-- The counters of a session are those of the specification. -/
theorem runSession_stats (hrel : FreqRel p srv.index srv.out stored) {s : UploadSession p}
    (hrun : runSession p srv s = .ok srv') :
    srv'.stats = (naiveSession p stored srv s).upload.stats := by
  obtain ⟨⟨⟨idx, out⟩, u⟩, hbatches, hu, -⟩ :=
    (freqDesign_refines p).run_from (s := (srv.index, srv.out)) (n := ⟨stored, login p srv s⟩)
      hrel s.batches
  rw [naiveRun_eq_naiveChunks] at hu
  have hend : u = (naiveSession p stored srv s).upload := hu
  obtain ⟨r, hr, hrun⟩ := Loops.bind_eq_ok.mp hrun
  obtain rfl := Except.ok.inj (hbatches.symm.trans hr)
  cases hrun
  rw [← hend]
  exact closeSession_stats p s.recipeEnd u

/-- The chunks that sessions brought, in order. -/
def uploadedChunks (sessions : List (UploadSession p)) : List Bytes :=
  sessions.flatMap UploadSession.chunks

/-- **The counters are exact.**  After any sessions, completed or broken off, the counters of the
server are the number and size of the chunks received, of the different fingerprints among them,
and of what the first chunks of the fingerprints were compressed to. -/
theorem stats_exact (p : Params) (sessions : List (UploadSession p)) :
    ∃ srv, runSessions p .init sessions = .ok srv ∧
      srv.stats = dedupStats p (uploadedChunks sessions) := by
  obtain ⟨srv, hrun, stored, -, htallied⟩ := Loops.foldlM_ok (f := runSession p)
    (l := sessions) (s := Server.init)
    (P := fun pre srv => ∃ stored, FreqRel p srv.index srv.out stored ∧
      Tallied p (uploadedChunks pre) stored srv.stats)
    ⟨∅, freqRel_init p, indexes_nil _ _ fun _ => rfl, rfl⟩ (by
      rintro pre s rest srv - ⟨stored, hrel, htallied⟩
      obtain ⟨srv', hrun, hrel', -, -⟩ := runSession_spec hrel s
      refine ⟨srv', hrun, _, hrel', ?_⟩
      have hlogin : Tallied p (uploadedChunks pre) stored (login p srv s).stats := htallied
      rw [runSession_stats hrel hrun, uploadedChunks, List.flatMap_append,
        List.flatMap_singleton]
      exact Tallied.chunks (n := ⟨stored, login p srv s⟩) hlogin s.chunks)
  exact ⟨srv, hrun, htallied.stats⟩

/-- A login opens an empty container. -/
theorem StoredOnce.login (h : StoredOnce p seen stored srv.disk.written) (s : UploadSession p) :
    StoredOnce p seen stored (login p srv s).containers where
  indexes := h.indexes.mono fun _ _ _ hat =>
    hat.mono fun _ _ hdata => hdata.mono fun _ hc => List.mem_append_left _ hc
  records := by
    obtain ⟨records, hrecords, hbytes⟩ := h.records
    refine ⟨records, hrecords, ?_⟩
    rw [← hbytes]
    simp [containerBytes, Upload.containers, Debe.login, Client.pending]

/-- The end of the recipe hands the last container over. -/
theorem StoredOnce.close (h : StoredOnce p seen stored u.containers) (head : FileRecipeHead)
    (hbody : u.client.curContainer.body = []) :
    StoredOnce p seen stored (closeSession p (some head) u).disk.written := by
  rw [closeSession_some_written head hbody]
  split
  · rename_i hnil
    have hempty : u.containers =
        u.disk.written ++ [⟨u.client.curContainer.containerID, []⟩] := by
      rw [Upload.containers, Client.pending, hnil]
    rw [hempty] at h
    rw [List.append_nil]
    refine ⟨h.indexes.mono fun _ _ _ hat => hat.mono fun _ hne hdata => hdata.of_empty hne, ?_⟩
    obtain ⟨records, hrecords, hbytes⟩ := h.records
    refine ⟨records, hrecords, ?_⟩
    rw [← hbytes]
    simp [containerBytes]
  · exact h

/-- A completed session. -/
theorem StoredOnce.session (h : StoredOnce p seen stored srv.disk.written)
    {s : UploadSession p} {head : FileRecipeHead} (hend : s.recipeEnd = some head)
    (hdisk : srv'.disk =
      (closeSession p s.recipeEnd (naiveSession p stored srv s).upload).disk) :
    StoredOnce p (seen ++ s.chunks) (naiveSession p stored srv s).stored srv'.disk.written := by
  have hchunks := (StoredOnce.chunks (n := ⟨stored, Debe.login p srv s⟩) (h.login s)
    (by simp [Debe.login, maxContainerSize]) s.length_chunks_le).1
  rw [hdisk, hend]
  exact hchunks.close head ((naiveSession_storeStep p stored srv s).1.body rfl)

/-- What completed uploads leave behind. -/
structure UploadsKept (p : Params) (sessions : List (UploadSession p)) (srv : Server)
    (stored : AList (fun _ : Bytes => RecipeEntry)) : Prop where
  server : SrvInv p srv stored
  recipes : RecipesRight p sessions srv stored
  once : StoredOnce p (uploadedChunks sessions) stored srv.disk.written
  tallied : Tallied p (uploadedChunks sessions) stored srv.stats

/-- **Completed uploads**, one after another. -/
theorem runSessions_kept (p : Params) (sessions : List (UploadSession p))
    (hdone : ∀ s ∈ sessions, s.recipeEnd.isSome) :
    ∃ srv stored, runSessions p .init sessions = .ok srv ∧ UploadsKept p sessions srv stored := by
  obtain ⟨srv, hrun, stored, hkept⟩ := Loops.foldlM_ok (f := runSession p)
    (l := sessions) (s := Server.init)
    (P := fun pre srv => ∃ stored, UploadsKept p pre srv stored)
    ⟨∅, srvInv_init p, by intro pre s post hcut; simp at hcut,
      ⟨indexes_nil _ _ fun _ => rfl, [], List.Forall₂.nil, rfl⟩,
      indexes_nil _ _ fun _ => rfl, rfl⟩ (by
      rintro pre s rest srv hcut ⟨stored, hkept⟩
      obtain ⟨head, hhead⟩ := Option.isSome_iff_exists.mp (hdone s (by simp [hcut]))
      obtain ⟨srv', file, addrs, hrun, hrel, hdisk, hrec, haddrs, -, hread⟩ :=
        runSession_recipe hkept.server.rel s
      have hseen : uploadedChunks (pre ++ [s]) = uploadedChunks pre ++ s.chunks := by
        rw [uploadedChunks, List.flatMap_append, List.flatMap_singleton, uploadedChunks]
      refine ⟨srv', hrun, _, hkept.server.completed hhead hrel hdisk,
        hkept.recipes.append (naiveChunks_stored_mono p ⟨stored, login p srv s⟩ s.chunks) hrec
          hhead (hread head hhead) haddrs, ?_, ?_⟩
      · rw [hseen]
        exact hkept.once.session hhead hdisk
      · have hlogin : Tallied p (uploadedChunks pre) stored (login p srv s).stats :=
          hkept.tallied
        rw [hseen, runSession_stats hkept.server.rel hrun]
        exact Tallied.chunks (n := ⟨stored, login p srv s⟩) hlogin s.chunks)
  exact ⟨srv, stored, hrun, hkept⟩

/-- **Every fingerprint is stored once.**  After any completed uploads the containers that were
handed over, one behind the other, are the records (ciphertext and IV) of the first chunks of
their fingerprints, in the order of arrival, and their size is the compressed size that was
counted and an IV for each unique chunk. -/
theorem uploads_stored_once (p : Params) (sessions : List (UploadSession p))
    (hdone : ∀ s ∈ sessions, s.recipeEnd.isSome) :
    ∃ srv records, runSessions p .init sessions = .ok srv ∧
      List.Forall₂ (fun c r => ∃ iv, r = storedRecord p c iv)
        (firsts p.crypto.generateHash (uploadedChunks sessions)) records ∧
      containerBytes srv.disk.written = records.flatten ∧
      (containerBytes srv.disk.written).length =
        srv.stats.compressedDataSize + cryptoBlockSize * srv.stats.uniqueChunkNum := by
  obtain ⟨srv, stored, hrun, hkept⟩ := runSessions_kept p sessions hdone
  obtain ⟨records, hrecords, hbytes⟩ := hkept.once.records
  refine ⟨srv, records, hrun, hrecords, hbytes, ?_⟩
  have hsize : ∀ {chunks records : List Bytes},
      List.Forall₂ (fun c r => ∃ iv, r = storedRecord p c iv) chunks records →
      records.flatten.length =
        (chunks.flatMap (payload p)).length + cryptoBlockSize * chunks.length := by
    intro chunks records h
    induction h with
    | nil => rfl
    | @cons c r chunks records hr _ ih =>
        obtain ⟨iv, rfl⟩ := hr
        rw [List.flatten_cons, List.length_append, ih, length_storedRecord, List.flatMap_cons,
          List.length_append, List.length_cons, Nat.mul_succ]
        omega
  rw [hbytes, hsize hrecords, hkept.tallied.stats, dedupStats, length_firsts]

/-- Two uploads of the chunk `A` leave one record. -/
theorem uploads_stored_once_small :
    ∃ srv iv, runSessions smallParams .init
        [smallSession (some ⟨1, 1⟩), smallSession (some ⟨1, 1⟩)] = .ok srv ∧
      containerBytes srv.disk.written = storedRecord smallParams [0x41] iv := by
  obtain ⟨srv, records, hrun, hrecords, hbytes, -⟩ := uploads_stored_once smallParams
    [smallSession (some ⟨1, 1⟩), smallSession (some ⟨1, 1⟩)] (by simp [smallSession])
  have hfirsts : firsts smallParams.crypto.generateHash
      (uploadedChunks [smallSession (some ⟨1, 1⟩), smallSession (some ⟨1, 1⟩)]) = [[0x41]] := by
    decide
  rw [hfirsts] at hrecords
  obtain ⟨r, rest, ⟨iv, rfl⟩, hrest, rfl⟩ := List.forall₂_cons_left_iff.mp hrecords
  rw [List.forall₂_nil_left_iff] at hrest
  subst hrest
  exact ⟨srv, iv, hrun, by simpa using hbytes⟩

end Debe
