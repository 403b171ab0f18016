import Debe.Session

/-!
# Sequences of upload sessions

Three results about any sequence of sessions from an empty server, one client at
a time.

* Completed uploads leave correct recipes: one entry per chunk, in order, each
  selecting the ciphertext and IV of a chunk with that fingerprint.
* No address in the out-enclave index or the heap dangles, provided that a
  session which stops before its end-of-recipe message brings no new chunk.
  Without that proviso the last in-enclave container is lost.
* Logging in for an upload replaces the recipe of that name at once; what the
  file then holds depends on how far the session got.
-/

namespace Debe

/-! ## Container names -/

/-- The first `n` names drawn are different. -/
def FreshNames (p : Params) (n : Nat) : Prop :=
  ∀ i < n, ∀ j < n, p.uuid i = p.uuid j → i = j

/-- The names are those of increasing draws below `draws`. -/
def Named (p : Params) (names : List ContainerID) (draws : Nat) : Prop :=
  ∃ is : List Nat, names = is.map p.uuid ∧ is.Pairwise (· < ·) ∧ ∀ i ∈ is, i < draws

theorem Named.sublist {p : Params} {names names' : List ContainerID} {draws draws' : Nat}
    (h : Named p names draws) (hsub : names'.Sublist names) (hle : draws ≤ draws') :
    Named p names' draws' := by
  obtain ⟨is, rfl, hinc, hlt⟩ := h
  obtain ⟨is', hsub', rfl⟩ := List.sublist_map_iff.mp hsub
  exact ⟨is', rfl, hinc.sublist hsub', fun i hi => (hlt i (hsub'.subset hi)).trans_le hle⟩

/-- The next `k` draws extend the names. -/
theorem Named.extend {p : Params} {names : List ContainerID} {draws : Nat}
    (h : Named p names draws) (k : Nat) :
    Named p (names ++ (List.range' draws k).map p.uuid) (draws + k) := by
  obtain ⟨is, rfl, hinc, hlt⟩ := h
  refine ⟨is ++ List.range' draws k, by rw [List.map_append], ?_, ?_⟩
  · rw [List.pairwise_append]
    refine ⟨hinc, List.pairwise_lt_range', ?_⟩
    intro i hi j hj
    have := (List.mem_range'_1.mp hj).1
    exact (hlt i hi).trans_le this
  · intro i hi
    rcases List.mem_append.mp hi with hi | hi
    · exact (hlt i hi).trans_le (Nat.le_add_right _ _)
    · exact (List.mem_range'_1.mp hi).2

theorem Named.nodup {p : Params} {names : List ContainerID} {draws : Nat}
    (h : Named p names draws) (hfresh : FreshNames p draws) : names.Nodup := by
  obtain ⟨is, rfl, hinc, hlt⟩ := h
  refine List.Nodup.map_on ?_ (hinc.imp ne_of_lt)
  intro i hi j hj he
  exact hfresh i (hlt i hi) j (hlt j hj) he

/-- Under different names, a written container is what its file holds. -/
theorem containerFile_of_mem {d : Disk} {c : Container}
    (hnd : (d.written.map Container.containerID).Nodup) (hc : c ∈ d.written) :
    containerFile d c.containerID = some c.body := by
  unfold containerFile
  cases hf : d.written.reverse.find? (fun c' => c'.containerID = c.containerID) with
  | none =>
      have := List.find?_eq_none.mp hf c (List.mem_reverse.mpr hc)
      simp at this
  | some c' =>
      have hmem : c' ∈ d.written := List.mem_reverse.mp (List.mem_of_find?_eq_some hf)
      have hid : c'.containerID = c.containerID := by simpa using List.find?_some hf
      rw [List.inj_on_of_nodup_map hnd hmem hc hid]
      rfl

/-! ## One session -/

/-- The server between sessions, against the specification's map: indexes,
written containers and names. -/
structure SrvInv (p : Params) (srv : Server) (stored : AList (fun _ : Bytes => RecipeEntry)) :
    Prop where
  rel : FreqRel p srv.index srv.out stored
  durable : ∀ fp a, InMap stored fp a → Located p srv.disk.written fp a
  named : Named p (srv.disk.written.map Container.containerID) srv.disk.draws

theorem srvInv_init (p : Params) : SrvInv p .init ∅ where
  rel := freqRel_init p
  durable := by
    intro fp a h
    simp [InMap] at h
  named := ⟨[], rfl, List.Pairwise.nil, by simp⟩

theorem UploadSession.length_chunks_le {p : Params} (s : UploadSession p) :
    ∀ c ∈ s.chunks, c.length ≤ maxChunkSize := by
  intro c hc
  obtain ⟨b, _, hb⟩ := List.mem_flatMap.mp hc
  exact b.length_data_le c hb

/-- The specification's session is one storing step from the login. -/
theorem naiveSession_storeStep (p : Params) (stored : AList (fun _ : Bytes => RecipeEntry))
    (srv : Server) (s : UploadSession p) :
    StoreStep p (login p srv s) (naiveSession p stored srv s).upload ∧
    (AllLocated p ⟨stored, login p srv s⟩ → AllLocated p (naiveSession p stored srv s)) :=
  naiveChunks_storeStep p (n := ⟨stored, login p srv s⟩) s.length_chunks_le
    (by simp [login, maxContainerSize])

/-- Names across a session, up to its last batch. -/
theorem naiveSession_named {p : Params} {srv : Server}
    {stored : AList (fun _ : Bytes => RecipeEntry)} (h : SrvInv p srv stored)
    (s : UploadSession p) :
    Named p (naiveSession p stored srv s).upload.names
      (naiveSession p stored srv s).upload.disk.draws := by
  obtain ⟨k, hk, hnames⟩ := (naiveSession_storeStep p stored srv s).1.names
  have hlogin : Named p (login p srv s).names (login p srv s).disk.draws := h.named.extend 1
  rw [hk, hnames]
  exact hlogin.extend k

/-- What a restore of the session's file reads afterwards, and that the other
files are untouched. -/
theorem runSession_recipe {p : Params} {srv : Server}
    {stored : AList (fun _ : Bytes => RecipeEntry)} (hrel : FreqRel p srv.index srv.out stored)
    (s : UploadSession p) :
    ∃ srv' file addrs, runSession p srv s = .ok srv' ∧
      FreqRel p srv'.index srv'.out (naiveSession p stored srv s).stored ∧
      srv'.disk = (closeSession p s.recipeEnd (naiveSession p stored srv s).upload).disk ∧
      srv'.recipes = srv.recipes.insert s.recipePath file ∧
      List.map some addrs = s.chunks.map
        (fun c => (naiveSession p stored srv s).stored.lookup (p.crypto.generateHash c)) ∧
      (s.recipeEnd = none → readRecipe p s.masterKey file = (s.virtualRecipeEnd,
        addrs.take (addrs.length / p.sendRecipeBatchSize * p.sendRecipeBatchSize))) ∧
      (∀ head, s.recipeEnd = some head → readRecipe p s.masterKey file = (head, addrs)) := by
  obtain ⟨srv', hrun, hrel', hdisk, hrec⟩ := runSession_spec hrel s
  have hinv : SessionInv p s.virtualRecipeEnd s.masterKey s.chunks
      (naiveSession p stored srv s) :=
    (sessionInv_login p stored srv s).chunks s.chunks
  refine ⟨srv', _, (naiveSession p stored srv s).upload.client.history.map Prod.snd, hrun, hrel',
    hdisk, hrec, hinv.addresses, ?_, ?_⟩
  · intro hnone
    have hbody := (naiveSession_storeStep p stored srv s).1.body rfl
    rw [hnone, closeSession_none hbody, ← hinv.key, hinv.recipe.read, List.length_map]
  · intro head hsome
    rw [hsome, closeSession_some_recipeFile, ← hinv.key, hinv.recipe.read_final]

/-- A completed session keeps the server's invariant. -/
theorem SrvInv.completed {p : Params} {srv srv' : Server}
    {stored : AList (fun _ : Bytes => RecipeEntry)} (h : SrvInv p srv stored)
    {s : UploadSession p} {head : FileRecipeHead} (hend : s.recipeEnd = some head)
    (hrel : FreqRel p srv'.index srv'.out (naiveSession p stored srv s).stored)
    (hdisk : srv'.disk =
      (closeSession p s.recipeEnd (naiveSession p stored srv s).upload).disk) :
    SrvInv p srv' (naiveSession p stored srv s).stored := by
  obtain ⟨hstep, hloc⟩ := naiveSession_storeStep p stored srv s
  have hbody := hstep.body rfl
  have hall : AllLocated p (naiveSession p stored srv s) :=
    hloc fun fp a hm => (h.durable fp a hm).mono fun c hc => List.mem_append_left _ hc
  rw [hend] at hdisk
  refine ⟨hrel, ?_, ?_⟩
  · intro fp a hm
    rw [hdisk]
    exact closeSession_some_located head hbody (hall fp a hm)
  · rw [hdisk]
    refine (naiveSession_named h s).sublist ?_ (closeSession_some_draws head)
    rw [closeSession_some_written head hbody, List.map_append, Upload.names]
    split
    · simp
    · simp [Client.pending]

/-- Addresses that a partial function gives for a list, one by one. -/
theorem forall₂_of_map_some {α β : Type} {f : α → Option β} {R : α → β → Prop} {l : List α}
    {l' : List β} (hmap : List.map some l' = l.map f) (hR : ∀ a b, f a = some b → R a b) :
    List.Forall₂ R l l' := by
  induction l generalizing l' with
  | nil =>
      have hnil : l' = [] := by simpa using hmap
      rw [hnil]
      exact List.Forall₂.nil
  | cons a l ih =>
      cases l' with
      | nil => simp at hmap
      | cons b l' =>
          simp only [List.map_cons, List.cons.injEq] at hmap
          exact List.Forall₂.cons (hR a b hmap.1.symm) (ih hmap.2)

/-! ## Completed uploads -/

/-- Address `a` selects, in the container file of its name, the ciphertext and IV
of a chunk with the fingerprint of `chunk`. -/
def Restorable (p : Params) (d : Disk) (chunk : Bytes) (a : RecipeEntry) : Prop :=
  ∃ body, containerFile d a.containerName = some body ∧
    ∃ chunk' iv, p.crypto.generateHash chunk' = p.crypto.generateHash chunk ∧
      a.length.toNat = (payload p chunk').length ∧ slice body a = storedRecord p chunk' iv

theorem SrvInv.restorable {p : Params} {srv : Server}
    {stored : AList (fun _ : Bytes => RecipeEntry)} (h : SrvInv p srv stored)
    (hfresh : FreshNames p srv.disk.draws) {chunk : Bytes} {a : RecipeEntry}
    (hm : InMap stored (p.crypto.generateHash chunk) a) : Restorable p srv.disk chunk a := by
  obtain ⟨c, hc, hid, hstores⟩ := h.durable _ _ hm
  exact ⟨c.body, hid ▸ containerFile_of_mem (h.named.nodup hfresh) hc, hstores⟩

/-- Every file of the sessions so far that was not overwritten since holds its
head and, for each chunk, the address the map gives. -/
def RecipesRight (p : Params) (sessions : List (UploadSession p)) (srv : Server)
    (stored : AList (fun _ : Bytes => RecipeEntry)) : Prop :=
  ∀ pre s post, sessions = pre ++ s :: post → (∀ t ∈ post, t.recipePath ≠ s.recipePath) →
    ∃ file head addrs, srv.recipes.lookup s.recipePath = some file ∧ s.recipeEnd = some head ∧
      readRecipe p s.masterKey file = (head, addrs) ∧
      List.map some addrs = s.chunks.map fun c => stored.lookup (p.crypto.generateHash c)

/-- One more completed session. -/
theorem RecipesRight.append {p : Params} {sessions : List (UploadSession p)} {srv srv' : Server}
    {stored stored' : AList (fun _ : Bytes => RecipeEntry)}
    (h : RecipesRight p sessions srv stored)
    (hgrow : ∀ fp a, InMap stored fp a → InMap stored' fp a) {t : UploadSession p}
    {head : FileRecipeHead} {file : Bytes} {addrs : List RecipeEntry}
    (hrec : srv'.recipes = srv.recipes.insert t.recipePath file) (hend : t.recipeEnd = some head)
    (hread : readRecipe p t.masterKey file = (head, addrs))
    (haddrs : List.map some addrs =
      t.chunks.map fun c => stored'.lookup (p.crypto.generateHash c)) :
    RecipesRight p (sessions ++ [t]) srv' stored' := by
  intro pre s post hcut hlater
  rcases List.eq_nil_or_concat post with rfl | ⟨post', t', rfl⟩
  · have hst : sessions = pre ∧ t = s := by
      have := List.append_inj' hcut rfl
      simpa using this
    obtain ⟨rfl, rfl⟩ := hst
    exact ⟨file, head, addrs, by rw [hrec, AList.lookup_insert], hend, hread, haddrs⟩
  · have hst : sessions = pre ++ s :: post' ∧ t = t' := by
      have hcut' : sessions ++ [t] = (pre ++ s :: post') ++ [t'] := by simpa using hcut
      have := List.append_inj' hcut' rfl
      simpa using this
    obtain ⟨hpre, rfl⟩ := hst
    obtain ⟨file₀, head₀, addrs₀, hlook, hend₀, hread₀, haddrs₀⟩ :=
      h pre s post' hpre fun t' ht' => hlater t' (by simp [ht'])
    have hne : s.recipePath ≠ t.recipePath := (hlater t (by simp)).symm
    refine ⟨file₀, head₀, addrs₀, by rw [hrec, AList.lookup_insert_ne hne, hlook], hend₀, hread₀,
      ?_⟩
    -- the addresses already given do not change as the map grows
    rw [haddrs₀]
    apply List.map_congr_left
    intro c hc
    have hmem : stored.lookup (p.crypto.generateHash c) ∈ List.map some addrs₀ := by
      rw [haddrs₀]
      exact List.mem_map_of_mem hc
    obtain ⟨a, _, ha⟩ := List.mem_map.mp hmem
    rw [← ha, hgrow _ a ha.symm]

/-- **Completed uploads leave correct recipes.**  For any sequence of completed
uploads from an empty server, no exit is taken; and if the container names are
fresh, every file that was not overwritten since has its own head and, chunk by
chunk, an address that selects the stored ciphertext and IV of a chunk with the
same fingerprint. -/
theorem completed_uploads_restorable (p : Params) (sessions : List (UploadSession p))
    (hdone : ∀ s ∈ sessions, s.recipeEnd.isSome) :
    ∃ srv, runSessions p .init sessions = .ok srv ∧
      (FreshNames p srv.disk.draws →
        ∀ pre s post, sessions = pre ++ s :: post →
          (∀ t ∈ post, t.recipePath ≠ s.recipePath) →
          ∃ file head addrs, srv.recipes.lookup s.recipePath = some file ∧
            s.recipeEnd = some head ∧ readRecipe p s.masterKey file = (head, addrs) ∧
            List.Forall₂ (Restorable p srv.disk) s.chunks addrs) := by
  obtain ⟨srv, hrun, stored, hinv, hright⟩ := Loops.foldlM_ok (f := runSession p)
    (l := sessions) (s := Server.init)
    (P := fun pre srv => ∃ stored, SrvInv p srv stored ∧ RecipesRight p pre srv stored)
    ⟨∅, srvInv_init p, by intro pre s post hcut; simp at hcut⟩ (by
      rintro pre t rest srv hcut ⟨stored, hinv, hright⟩
      obtain ⟨head, hhead⟩ := Option.isSome_iff_exists.mp (hdone t (by simp [hcut]))
      obtain ⟨srv', file, addrs, hrun, hrel, hdisk, hrec, haddrs, _, hread⟩ :=
        runSession_recipe hinv.rel t
      exact ⟨srv', hrun, _, hinv.completed hhead hrel hdisk,
        hright.append (naiveChunks_stored_mono p ⟨stored, login p srv t⟩ t.chunks) hrec hhead
          (hread head hhead) haddrs⟩)
  refine ⟨srv, hrun, fun hfresh pre s post hcut hlater => ?_⟩
  obtain ⟨file, head, addrs, hlook, hend, hread, haddrs⟩ := hright pre s post hcut hlater
  refine ⟨file, head, addrs, hlook, hend, hread, ?_⟩
  exact forall₂_of_map_some haddrs fun c a ha => hinv.restorable hfresh ha

/-- The names of the small configuration are fresh for longer than any run. -/
theorem freshNames_small {n : Nat} (hn : n ≤ 2 ^ 64) : FreshNames smallParams n := by
  intro i hi j hj he
  have hbytes : LittleEndian.encode 8 i = LittleEndian.encode 8 j := congrArg Subtype.val he
  have hd := congrArg LittleEndian.decode hbytes
  rwa [LittleEndian.decode_encode_of_lt (by omega), LittleEndian.decode_encode_of_lt (by omega)]
    at hd

/-- One completed upload of one chunk: its file lists one restorable address. -/
theorem completed_uploads_restorable_small :
    ∃ srv, runSessions smallParams .init [smallSession (some ⟨1, 1⟩)] = .ok srv ∧
      ∃ file head addrs, srv.recipes.lookup [7] = some file ∧
        readRecipe smallParams [4] file = (head, addrs) ∧
        List.Forall₂ (Restorable smallParams srv.disk) [[0x41]] addrs := by
  obtain ⟨srv, hrun, h⟩ := completed_uploads_restorable smallParams
    [smallSession (some ⟨1, 1⟩)] (by simp [smallSession])
  have hdraws : (match runSessions smallParams .init [smallSession (some ⟨1, 1⟩)] with
      | .ok srv => srv.disk.draws
      | .error _ => 0) = 2 := by decide
  rw [hrun] at hdraws
  have htwo : srv.disk.draws = 2 := hdraws
  have hfresh : FreshNames smallParams srv.disk.draws := freshNames_small (by omega)
  obtain ⟨file, head, addrs, hlook, _, hread, hall⟩ :=
    h hfresh [] (smallSession (some ⟨1, 1⟩)) [] rfl (by simp)
  exact ⟨srv, hrun, file, head, addrs, hlook, hread, hall⟩

/-! ## Aborted sessions -/

/-- The byte range of an address, IV included, lies inside a container of that
name that was handed to `Ocall_WriteContainer`. -/
def InsideWritten (d : Disk) (a : RecipeEntry) : Prop :=
  ∃ c ∈ d.written, c.containerID = a.containerName ∧
    a.offset.toNat + a.length.toNat + cryptoBlockSize ≤ c.body.length

instance (d : Disk) (a : RecipeEntry) : Decidable (InsideWritten d a) :=
  inferInstanceAs (Decidable (∃ c ∈ d.written, _))

/-- Every address in the out-enclave index and in the heap is inside a written
container. -/
def NoDangling (p : Params) (srv : Server) : Prop :=
  (∀ e ∈ srv.out.entries,
    InsideWritten srv.disk (RecipeEntry.ofBytes (p.crypto.aesCBCDec p.indexQueryKey e.2))) ∧
  ∀ e ∈ srv.index.insideDedupIndex.index.entries, InsideWritten srv.disk e.2.address

instance (p : Params) (srv : Server) : Decidable (NoDangling p srv) :=
  inferInstanceAs (Decidable (_ ∧ _))

/-- A session that stops before its end-of-recipe message has only chunks whose
fingerprints occurred in an earlier session. -/
def AbortsBringNothingNew (p : Params) (sessions : List (UploadSession p)) : Prop :=
  ∀ pre s post, sessions = pre ++ s :: post → s.recipeEnd = none →
    ∀ c ∈ s.chunks, ∃ t ∈ pre, ∃ c' ∈ t.chunks,
      p.crypto.generateHash c' = p.crypto.generateHash c

theorem Located.insideWritten {p : Params} {d : Disk} {fp : Bytes} {a : RecipeEntry}
    (h : Located p d.written fp a) : InsideWritten d a := by
  obtain ⟨c, hc, hs⟩ := h
  exact ⟨c, hc, hs.1, hs.inside⟩

/-- The server's invariant leaves no address dangling. -/
theorem SrvInv.noDangling {p : Params} {srv : Server}
    {stored : AList (fun _ : Bytes => RecipeEntry)} (h : SrvInv p srv stored) :
    NoDangling p srv := by
  constructor
  · rintro ⟨key, value⟩ he
    have hlook : srv.out.lookup key = some value := AList.mem_lookup_iff.mpr he
    obtain ⟨fp, a, _, _, hvalue, hgood⟩ := h.rel.outside key value hlook
    dsimp only
    rw [hvalue, p.crypto.aesCBCDec_address]
    exact (h.durable fp a hgood).insideWritten
  · rintro ⟨fp, item⟩ he
    have hlook : srv.index.insideDedupIndex.index.lookup fp = some item :=
      AList.mem_lookup_iff.mpr he
    have hentry : srv.index.insideDedupIndex.entry fp = some (item.chunkFreq, item.address) := by
      simp [EntryHeap.entry, hlook]
    exact (h.durable fp item.address (h.rel.heap.good _ _ _ hentry)).insideWritten

/-- Chunks that are all on the map are not stored. -/
theorem naiveChunks_known (p : Params) {n : Naive} {chunks : List Bytes}
    (h : ∀ c ∈ chunks, (n.stored.lookup (p.crypto.generateHash c)).isSome) :
    (naiveChunks p n chunks).stored = n.stored ∧
    (naiveChunks p n chunks).upload.disk = n.upload.disk := by
  induction chunks generalizing n with
  | nil => exact ⟨rfl, rfl⟩
  | cons c cs ih =>
      obtain ⟨a, ha⟩ := Option.isSome_iff_exists.mp (h c List.mem_cons_self)
      have hrest := ih (n := naiveChunk p n c) (by
        rw [naiveChunk_reuse ha]
        exact fun c' hc' => h c' (List.mem_cons_of_mem _ hc'))
      rw [naiveChunk_reuse ha] at hrest
      rw [naiveChunks, List.foldl_cons, ← naiveChunks, naiveChunk_reuse ha]
      exact hrest

/-- An aborted session without new chunks keeps the server's invariant. -/
theorem SrvInv.aborted {p : Params} {srv srv' : Server}
    {stored : AList (fun _ : Bytes => RecipeEntry)} (h : SrvInv p srv stored)
    {s : UploadSession p} (hend : s.recipeEnd = none)
    (hknown : ∀ c ∈ s.chunks, (stored.lookup (p.crypto.generateHash c)).isSome)
    (hrel : FreqRel p srv'.index srv'.out (naiveSession p stored srv s).stored)
    (hdisk : srv'.disk =
      (closeSession p s.recipeEnd (naiveSession p stored srv s).upload).disk) :
    SrvInv p srv' (naiveSession p stored srv s).stored := by
  obtain ⟨hstored, hsame⟩ := naiveChunks_known p (n := ⟨stored, login p srv s⟩) hknown
  have hbody := (naiveSession_storeStep p stored srv s).1.body rfl
  have hdisk' : srv'.disk = (login p srv s).disk := by
    rw [hdisk, hend, closeSession_none hbody]
    exact hsame
  refine ⟨hrel, ?_, ?_⟩
  · intro fp a hm
    rw [hdisk']
    have hsame : (naiveSession p stored srv s).stored = stored := hstored
    exact h.durable fp a (hsame ▸ hm)
  · rw [hdisk']
    exact h.named.sublist (List.Sublist.refl _) (Nat.le_succ _)

/-- **No dangling address.**  For any sequence of sessions, completed or aborted,
in which the aborted ones bring no new chunk, every address in the out-enclave
index and in the heap refers to bytes inside a container that was handed over. -/
theorem no_dangling_address (p : Params) (sessions : List (UploadSession p))
    (hsessions : AbortsBringNothingNew p sessions) :
    ∃ srv, runSessions p .init sessions = .ok srv ∧ NoDangling p srv := by
  obtain ⟨srv, hrun, stored, hinv, _⟩ := Loops.foldlM_ok (f := runSession p)
    (l := sessions) (s := Server.init)
    (P := fun pre srv => ∃ stored, SrvInv p srv stored ∧
      ∀ t ∈ pre, ∀ c ∈ t.chunks, (stored.lookup (p.crypto.generateHash c)).isSome)
    ⟨∅, srvInv_init p, by simp⟩ (by
      rintro pre t rest srv hcut ⟨stored, hinv, hseen⟩
      obtain ⟨srv', file, addrs, hrun, hrel, hdisk, _, haddrs, _, _⟩ :=
        runSession_recipe hinv.rel t
      refine ⟨srv', hrun, (naiveSession p stored srv t).stored, ?_, ?_⟩
      · cases hend : t.recipeEnd with
        | some head => exact hinv.completed hend hrel hdisk
        | none =>
            refine hinv.aborted hend (fun c hc => ?_) hrel hdisk
            obtain ⟨t', ht', c', hc', hsame⟩ := hsessions pre t rest hcut hend c hc
            rw [← hsame]
            exact hseen t' ht' c' hc'
      · intro t' ht' c hc
        rcases List.mem_append.mp ht' with ht' | ht'
        · obtain ⟨a, ha⟩ := Option.isSome_iff_exists.mp (hseen t' ht' c hc)
          have := naiveChunks_stored_mono p ⟨stored, login p srv t⟩ t.chunks _ a ha
          exact Option.isSome_iff_exists.mpr ⟨a, this⟩
        · rw [List.mem_singleton.mp ht'] at hc
          have hmem : (naiveSession p stored srv t).stored.lookup (p.crypto.generateHash c) ∈
              List.map some addrs := by
            rw [haddrs]
            exact List.mem_map_of_mem hc
          obtain ⟨a, _, ha⟩ := List.mem_map.mp hmem
          rw [← ha]
          rfl)
  exact ⟨srv, hrun, hinv.noDangling⟩

/-- A completed upload and then an aborted one of the same chunk. -/
theorem no_dangling_address_small :
    ∃ srv, runSessions smallParams .init
      [smallSession (some ⟨1, 1⟩), smallSession none] = .ok srv ∧ NoDangling smallParams srv := by
  apply no_dangling_address smallParams
  intro pre s post hcut hend c hc
  match pre, hcut with
  | [], hcut =>
      have hs : smallSession (some ⟨1, 1⟩) = s := (List.cons.inj hcut).1
      rw [← hs] at hend
      cases hend
  | [t], hcut =>
      have ht : smallSession (some ⟨1, 1⟩) = t := (List.cons.inj hcut).1
      have hs : smallSession none = s := (List.cons.inj (List.cons.inj hcut).2).1
      subst ht hs
      exact ⟨_, List.mem_singleton_self _, c, hc, rfl⟩
  | _ :: _ :: _, hcut => simp at hcut

/-- One session that stops after its only chunk, before the end-of-recipe
message: index and heap hold the chunk's address, but no container was ever
handed over. -/
theorem aborted_upload_dangles :
    ∃ srv, runSessions smallParams .init [smallSession none] = .ok srv ∧
      ¬ NoDangling smallParams srv := by
  have hrun : (match runSessions smallParams .init [smallSession none] with
      | .ok srv => decide (NoDangling smallParams srv)
      | .error _ => true) = false := by decide
  cases hres : runSessions smallParams .init [smallSession none] with
  | ok srv => exact ⟨srv, rfl, by simpa [hres] using hrun⟩
  | error e => simp [hres] at hrun

/-! ## What an upload does to the recipe of its name -/

/-- Any sequence of sessions runs through, and the indexes stand for a map. -/
theorem runSessions_rel (p : Params) (sessions : List (UploadSession p)) :
    ∃ srv, runSessions p .init sessions = .ok srv ∧
      ∃ stored, FreqRel p srv.index srv.out stored :=
  Loops.foldlM_ok (P := fun _ (srv : Server) => ∃ stored, FreqRel p srv.index srv.out stored)
    ⟨∅, freqRel_init p⟩ (by
      rintro pre t rest srv _ ⟨stored, hrel⟩
      obtain ⟨srv', hrun, hrel', _, _⟩ := runSession_spec hrel t
      exact ⟨srv', hrun, _, hrel'⟩)

/-- An address of the map is the one the out-enclave index holds. -/
theorem FreqRel.lookup {p : Params} {idx : FreqIndex} {out : OutIndex}
    {stored : AList (fun _ : Bytes => RecipeEntry)} (h : FreqRel p idx out stored) {fp : Bytes}
    (hlen : fp.length = chunkHashSize) {a : RecipeEntry} (hm : InMap stored fp a) :
    out.lookup (p.crypto.indexAESCMCEnc p.indexQueryKey fp) =
      some (p.crypto.aesCBCEnc p.indexQueryKey a.toBytes) := by
  cases hl : out.lookup (p.crypto.indexAESCMCEnc p.indexQueryKey fp) with
  | none =>
      rw [InMap, h.covers fp hlen hl] at hm
      cases hm
  | some value =>
      obtain ⟨a', hvalue, ha'⟩ := h.outside.found hlen hl
      have haa : a' = a := Option.some.inj (ha'.symm.trans hm)
      rw [hvalue, haa]

/-- The out-enclave index holds `a` for the fingerprint of `chunk`. -/
def IndexedAt (p : Params) (out : OutIndex) (chunk : Bytes) (a : RecipeEntry) : Prop :=
  out.lookup (p.crypto.indexAESCMCEnc p.indexQueryKey (p.crypto.generateHash chunk)) =
    some (p.crypto.aesCBCEnc p.indexQueryKey a.toBytes)

/-- **An upload replaces the recipe of its name.**  After any sequence of
sessions, one more session leaves every other recipe as it was.  If it stops
before its end-of-recipe message, its own recipe reads as the placeholder head
and the addresses of the complete recipe batches; if it ends properly, as the
new head and the addresses of all chunks. -/
theorem upload_replaces_recipe (p : Params) (sessions : List (UploadSession p)) :
    ∃ srv, runSessions p .init sessions = .ok srv ∧
      ∀ s : UploadSession p, ∃ srv' file addrs, runSession p srv s = .ok srv' ∧
        (∀ path, path ≠ s.recipePath → srv'.recipes.lookup path = srv.recipes.lookup path) ∧
        srv'.recipes.lookup s.recipePath = some file ∧
        List.Forall₂ (IndexedAt p srv'.out) s.chunks addrs ∧
        (s.recipeEnd = none → readRecipe p s.masterKey file = (s.virtualRecipeEnd,
          addrs.take (addrs.length / p.sendRecipeBatchSize * p.sendRecipeBatchSize))) ∧
        (∀ head, s.recipeEnd = some head → readRecipe p s.masterKey file = (head, addrs)) := by
  obtain ⟨srv, hrun, stored, hrel⟩ := runSessions_rel p sessions
  refine ⟨srv, hrun, fun s => ?_⟩
  obtain ⟨srv', file, addrs, hrun', hrel', _, hrec, haddrs, hnone, hsome⟩ :=
    runSession_recipe hrel s
  refine ⟨srv', file, addrs, hrun', ?_, ?_, ?_, hnone, hsome⟩
  · intro path hpath
    rw [hrec, AList.lookup_insert_ne hpath]
  · rw [hrec, AList.lookup_insert]
  · refine forall₂_of_map_some haddrs fun c a ha => ?_
    exact hrel'.lookup (p.crypto.length_generateHash c) ha

/-- A completed upload, then one of the same name that stops early. -/
theorem upload_replaces_recipe_small :
    ∃ srv srv' file, runSessions smallParams .init [smallSession (some ⟨1, 1⟩)] = .ok srv ∧
      runSession smallParams srv (smallSession none) = .ok srv' ∧
      srv'.recipes.lookup [7] = some file ∧
      readRecipe smallParams [4] file = (⟨0, 0⟩, []) := by
  obtain ⟨srv, hrun, h⟩ := upload_replaces_recipe smallParams [smallSession (some ⟨1, 1⟩)]
  obtain ⟨srv', file, addrs, hrun', _, hlook, hall, hnone, _⟩ := h (smallSession none)
  have hlen : addrs.length = 1 := hall.length_eq.symm
  have hread := hnone rfl
  rw [hlen] at hread
  exact ⟨srv, srv', file, hrun, hrun', hlook, hread⟩

/-- After a completed upload of a name, an upload of the same name that stops
early: the restore of that name no longer yields the completed version. -/
theorem aborted_overwrite_loses_recipe :
    ∃ srv srv', runSessions smallParams .init [smallSession (some ⟨1, 1⟩)] = .ok srv ∧
      runSession smallParams srv (smallSession none) = .ok srv' ∧
      (srv'.recipes.lookup [7]).map (readRecipe smallParams [4]) ≠
        (srv.recipes.lookup [7]).map (readRecipe smallParams [4]) := by
  have hrun : (match runSessions smallParams .init [smallSession (some ⟨1, 1⟩)] with
      | .ok srv =>
          match runSession smallParams srv (smallSession none) with
          | .ok srv' => decide ((srv'.recipes.lookup [7]).map (readRecipe smallParams [4]) =
              (srv.recipes.lookup [7]).map (readRecipe smallParams [4]))
          | .error _ => true
      | .error _ => true) = false := by decide
  cases hfirst : runSessions smallParams .init [smallSession (some ⟨1, 1⟩)] with
  | error e => simp [hfirst] at hrun
  | ok srv =>
      cases hsecond : runSession smallParams srv (smallSession none) with
      | error e => simp [hfirst, hsecond] at hrun
      | ok srv' => exact ⟨srv, srv', rfl, hsecond, by simpa [hfirst, hsecond] using hrun⟩

end Debe
