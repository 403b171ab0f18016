import Debe.IndexDesigns
import Debe.Recipe

/-!
# Upload sessions, one after another

The server between sessions: the index object, the out-enclave index, the
containers, and the recipe files by path.  A session is what one client sends:
login, batches of chunks, and the end-of-recipe message or a connection that
closes before it.  `runSession` is the upload half of `ServerOptThread::Run`
with `DataReceiver::Run` inside it.

The recipe file is open for the whole session and closed at its end, so its
contents appear among the server's files when the session is over.
-/

namespace Debe

/-- An upload session.  `virtualRecipeEnd` is the head written at login, which
the source leaves uninitialised. -/
structure UploadSession (p : Params) where
  recipePath : Bytes
  sessionKey : Bytes
  masterKey : Bytes
  iv : IV
  virtualRecipeEnd : FileRecipeHead
  batches : List (Batch p)
  recipeEnd : Option FileRecipeHead

/-- All chunks of the session, in order. -/
def UploadSession.chunks {p : Params} (s : UploadSession p) : List Bytes :=
  s.batches.flatMap Batch.data

/-- A session of the small configuration that brings the chunk `A` in one batch. -/
def smallSession (recipeEnd : Option FileRecipeHead) : UploadSession smallParams where
  recipePath := [7]
  sessionKey := [3]
  masterKey := [4]
  iv := ⟨0, 0⟩
  virtualRecipeEnd := ⟨0, 0⟩
  batches := [{ chunks := [⟨[0x41], by decide⟩], length_le := by decide, length_lt := by decide }]
  recipeEnd := recipeEnd

/-- The server between sessions. -/
structure Server where
  index : FreqIndex
  out : OutIndex
  disk : Disk
  stats : Stats
  recipes : AList (fun _ : Bytes => Bytes)

/-- A server with empty indexes and no files. -/
def Server.init : Server where
  index := .init
  out := ∅
  disk := { written := [], draws := 0, saved := [] }
  stats := {}
  recipes := ∅

/-- The `ClientVar` and `EnclaveClient` constructors: a container under a new
name, empty buffers, a random IV, and a recipe file with a placeholder head. -/
def login (p : Params) (srv : Server) (s : UploadSession p) : Upload where
  client :=
    { sessionKey := s.sessionKey
      masterKey := s.masterKey
      iv := s.iv
      inRecipe := []
      inContainer := []
      curContainer := { containerID := p.uuid srv.disk.draws, body := [] }
      recipeFile := s.virtualRecipeEnd.toBytes
      history := [] }
  disk := { srv.disk with draws := srv.disk.draws + 1 }
  stats := srv.stats

/-- `FinalizeRecipe`: overwrite the head and close the file. -/
def finalizeRecipe (recipeHead : FileRecipeHead) (c : Client) : Client :=
  { c with recipeFile := recipeHead.toBytes ++ c.recipeFile.drop fileRecipeHeadSize }

/-- `CLIENT_UPLOAD_RECIPE_END`. -/
def processRecipeEnd (p : Params) (recipeHead : FileRecipeHead) (u : Upload) : Upload :=
  let u := processTailBatch p u
  { u with client := finalizeRecipe recipeHead u.client }

/-- After the receive loop, "process the last container". -/
def processLastContainer (p : Params) (u : Upload) : Upload :=
  if u.client.curContainer.body ≠ [] then
    let w := ocallWriteContainer p u.disk u.client.curContainer
    { u with client := { u.client with curContainer := w.2 }, disk := w.1 }
  else u

/-- What follows the batches: the end-of-recipe message if it was sent, then the
end of `DataReceiver::Run`. -/
def closeSession (p : Params) (recipeEnd : Option FileRecipeHead) (u : Upload) : Upload :=
  processLastContainer p (match recipeEnd with
    | some recipeHead => processRecipeEnd p recipeHead u
    | none => u)

/-- One upload session. -/
def runSession (p : Params) (srv : Server) (s : UploadSession p) : Except Fault Server := do
  let r ← (freqDesign p).run ((srv.index, srv.out), login p srv s) s.batches
  let u := closeSession p s.recipeEnd r.2
  return { index := r.1.1
           out := r.1.2
           disk := u.disk
           stats := u.stats
           recipes := srv.recipes.insert s.recipePath u.client.recipeFile }

/-- Sessions run one after another. -/
def runSessions (p : Params) (srv : Server) (sessions : List (UploadSession p)) :
    Except Fault Server :=
  sessions.foldlM (runSession p) srv

/-- The container file of a name: the last one written under it. -/
def containerFile (d : Disk) (name : ContainerID) : Option Bytes :=
  (d.written.reverse.find? (fun c => c.containerID = name)).map Container.body

/-! ## Sessions against the specification -/

/-- The specification on the batches of a session. -/
def naiveSession (p : Params) (stored : AList (fun _ : Bytes => RecipeEntry)) (srv : Server)
    (s : UploadSession p) : Naive :=
  naiveChunks p ⟨stored, login p srv s⟩ s.chunks

theorem naiveRun_eq_naiveChunks (p : Params) (n : Naive) (batches : List (Batch p)) :
    naiveRun p n batches = naiveChunks p n (batches.flatMap Batch.data) := by
  induction batches generalizing n with
  | nil => rfl
  | cons b bs ih =>
      rw [naiveRun, List.foldl_cons, ← naiveRun, ih, List.flatMap_cons]
      simp [naiveChunks, List.foldl_append]

/-- **A session takes no exit** and leaves indexes that stand for the
specification's map. -/
theorem runSession_spec {p : Params} {srv : Server}
    {stored : AList (fun _ : Bytes => RecipeEntry)} (hrel : FreqRel p srv.index srv.out stored)
    (s : UploadSession p) :
    ∃ srv', runSession p srv s = .ok srv' ∧
      FreqRel p srv'.index srv'.out (naiveSession p stored srv s).stored ∧
      srv'.disk = (closeSession p s.recipeEnd (naiveSession p stored srv s).upload).disk ∧
      srv'.recipes = srv.recipes.insert s.recipePath
        (closeSession p s.recipeEnd (naiveSession p stored srv s).upload).client.recipeFile := by
  obtain ⟨⟨⟨idx, out⟩, u⟩, hrun, hu, hR⟩ :=
    (freqDesign_refines p).run_from (s := (srv.index, srv.out)) (n := ⟨stored, login p srv s⟩)
      hrel s.batches
  rw [naiveRun_eq_naiveChunks] at hu hR
  have hend : u = (naiveSession p stored srv s).upload := hu
  let u' := closeSession p s.recipeEnd u
  refine ⟨{ index := idx
            out := out
            disk := u'.disk
            stats := u'.stats
            recipes := srv.recipes.insert s.recipePath u'.client.recipeFile }, ?_, hR, ?_, ?_⟩
  · simp only [runSession, hrun, bind, Except.bind, pure, Except.pure, u']
  · rw [← hend]
  · rw [← hend]

/-! ## What a session keeps -/

theorem storeUnique_spec (p : Params) {chunk : Bytes} {u : Upload}
    (hchunk : chunk.length ≤ maxChunkSize)
    (hroom : u.client.inContainer.length < maxContainerSize) :
    StoreStep p u (storeUnique p chunk u).2 ∧
    Stores p (storeUnique p chunk u).2.client.pending (p.crypto.generateHash chunk)
      (storeUnique p chunk u).1 := by
  obtain ⟨hstep, hstores⟩ := processUniqueChunk_spec p hchunk hroom
  exact ⟨hstep.trans (StoreStep.of_same hstep.room rfl rfl rfl), hstores⟩

theorem recordChunk_storeStep (p : Params) (fp : Bytes) (size : Nat) (a : RecipeEntry) {u : Upload}
    (hroom : u.client.inContainer.length < maxContainerSize) :
    StoreStep p u (recordChunk p fp size a u) := by
  have hstep := updateFileRecipe_storeStep p fp a hroom
  exact hstep.trans (StoreStep.of_same hstep.room rfl rfl rfl)

theorem recordChunk_history (p : Params) (fp : Bytes) (size : Nat) (a : RecipeEntry) (u : Upload) :
    (recordChunk p fp size a u).client.history = u.client.history ++ [(fp, a)] ∧
    (recordChunk p fp size a u).client.masterKey = u.client.masterKey := by
  unfold recordChunk updateFileRecipe flushRecipe
  dsimp only
  split <;> exact ⟨rfl, rfl⟩

/-- Every address of the map is located, in a written container or in the one
being filled. -/
def AllLocated (p : Params) (n : Naive) : Prop :=
  ∀ fp a, InMap n.stored fp a →
    Located p (n.upload.disk.written ++ [n.upload.client.pending]) fp a

/-- One chunk of the specification is a storing step, and what it puts on the map
is located. -/
theorem naiveChunk_storeStep (p : Params) {n : Naive} {chunk : Bytes}
    (hchunk : chunk.length ≤ maxChunkSize)
    (hroom : n.upload.client.inContainer.length < maxContainerSize) :
    StoreStep p n.upload (naiveChunk p n chunk).upload ∧
    (AllLocated p n → AllLocated p (naiveChunk p n chunk)) := by
  cases hl : n.stored.lookup (p.crypto.generateHash chunk) with
  | some a =>
      rw [naiveChunk_reuse hl]
      have hrec := recordChunk_storeStep p (p.crypto.generateHash chunk) chunk.length a hroom
      exact ⟨hrec, fun h fp a' hm => hrec.located (h fp a' hm)⟩
  | none =>
      rw [naiveChunk_store hl]
      obtain ⟨hstep, hstores⟩ := storeUnique_spec p hchunk hroom
      have hrec := recordChunk_storeStep p (p.crypto.generateHash chunk) chunk.length
        (storeUnique p chunk n.upload).1 hstep.room
      refine ⟨hstep.trans hrec, fun h fp a hm => ?_⟩
      by_cases hfp : fp = p.crypto.generateHash chunk
      · subst hfp
        rw [InMap, AList.lookup_insert] at hm
        cases hm
        exact hrec.keep _ _ hstores
      · rw [InMap, AList.lookup_insert_ne hfp] at hm
        exact (hstep.trans hrec).located (h fp a hm)

/-- The same over a run of chunks. -/
theorem naiveChunks_storeStep (p : Params) {n : Naive} {chunks : List Bytes}
    (hchunks : ∀ c ∈ chunks, c.length ≤ maxChunkSize)
    (hroom : n.upload.client.inContainer.length < maxContainerSize) :
    StoreStep p n.upload (naiveChunks p n chunks).upload ∧
    (AllLocated p n → AllLocated p (naiveChunks p n chunks)) := by
  induction chunks generalizing n with
  | nil => exact ⟨StoreStep.of_same hroom rfl rfl rfl, id⟩
  | cons c cs ih =>
      obtain ⟨hstep, hloc⟩ := naiveChunk_storeStep p (hchunks c List.mem_cons_self) hroom
      obtain ⟨hrest, hloc'⟩ := ih (n := naiveChunk p n c)
        (fun c' hc' => hchunks c' (List.mem_cons_of_mem _ hc')) hstep.room
      exact ⟨hstep.trans hrest, fun h => hloc' (hloc h)⟩

/-- The recipe in mid-session: laid out as `RecipeInv` says, and made of addresses
that the map gives for the chunks `seen`, in order. -/
structure SessionInv (p : Params) (head : FileRecipeHead) (masterKey : Bytes) (seen : List Bytes)
    (n : Naive) : Prop where
  key : n.upload.client.masterKey = masterKey
  recipe : RecipeInv p head n.upload.client
  history : n.upload.client.history.map Prod.fst = seen.map p.crypto.generateHash
  inMap : ∀ e ∈ n.upload.client.history, InMap n.stored e.1 e.2

theorem sessionInv_login (p : Params) (stored : AList (fun _ : Bytes => RecipeEntry))
    (srv : Server) (s : UploadSession p) :
    SessionInv p s.virtualRecipeEnd s.masterKey [] ⟨stored, login p srv s⟩ where
  key := rfl
  recipe := ⟨[], by simp, by simp [login], rfl, p.sendRecipeBatchSize_pos⟩
  history := rfl
  inMap := by simp [login]

/-- Recording an address of the map. -/
theorem SessionInv.record {p : Params} {head : FileRecipeHead} {masterKey : Bytes}
    {seen : List Bytes} {n : Naive} (h : SessionInv p head masterKey seen n) {chunk : Bytes}
    {a : RecipeEntry} (ha : InMap n.stored (p.crypto.generateHash chunk) a) :
    SessionInv p head masterKey (seen ++ [chunk])
      { n with upload :=
          recordChunk p (p.crypto.generateHash chunk) chunk.length a n.upload } := by
  obtain ⟨hhist, hkey⟩ :=
    recordChunk_history p (p.crypto.generateHash chunk) chunk.length a n.upload
  refine ⟨hkey.trans h.key, h.recipe.update (p.crypto.generateHash chunk) a, ?_, ?_⟩
  · simp only [hhist, List.map_append, h.history, List.map_cons, List.map_nil]
  · intro e he
    simp only [hhist] at he
    rcases List.mem_append.mp he with he | he
    · exact h.inMap e he
    · rw [List.mem_singleton.mp he]
      exact ha

/-- Storing a new chunk leaves the recipe alone. -/
theorem SessionInv.store {p : Params} {head : FileRecipeHead} {masterKey : Bytes}
    {seen : List Bytes} {n : Naive} (h : SessionInv p head masterKey seen n) {chunk : Bytes}
    (hnew : n.stored.lookup (p.crypto.generateHash chunk) = none) :
    SessionInv p head masterKey seen
      { stored := n.stored.insert (p.crypto.generateHash chunk) (storeUnique p chunk n.upload).1
        upload := (storeUnique p chunk n.upload).2 } := by
  obtain ⟨hrec, hfile, hkey, hhist⟩ := processUniqueChunk_recipe p chunk n.upload
  refine ⟨hkey.trans h.key, h.recipe.congr hfile hkey hrec hhist, ?_, ?_⟩
  · exact (congrArg (List.map Prod.fst) hhist).trans h.history
  · intro e he
    have he' : e ∈ n.upload.client.history := hhist ▸ he
    exact inMap_insert hnew _ _ _ (h.inMap e he')

/-- One chunk of the specification adds one address to the recipe. -/
theorem SessionInv.chunk {p : Params} {head : FileRecipeHead} {masterKey : Bytes}
    {seen : List Bytes} {n : Naive} (h : SessionInv p head masterKey seen n) (chunk : Bytes) :
    SessionInv p head masterKey (seen ++ [chunk]) (naiveChunk p n chunk) := by
  cases hl : n.stored.lookup (p.crypto.generateHash chunk) with
  | some a =>
      rw [naiveChunk_reuse hl]
      exact h.record hl
  | none =>
      rw [naiveChunk_store hl]
      exact (h.store hl).record (AList.lookup_insert _)

/-- A run of chunks adds one address each. -/
theorem SessionInv.chunks {p : Params} {head : FileRecipeHead} {masterKey : Bytes}
    {seen : List Bytes} {n : Naive} (h : SessionInv p head masterKey seen n)
    (chunks : List Bytes) :
    SessionInv p head masterKey (seen ++ chunks) (naiveChunks p n chunks) := by
  induction chunks generalizing seen n with
  | nil => simpa [naiveChunks] using h
  | cons c cs ih => simpa [naiveChunks] using ih (h.chunk c)

/-- The addresses of the recipe are those the map gives for the chunks. -/
theorem SessionInv.addresses {p : Params} {head : FileRecipeHead} {masterKey : Bytes}
    {seen : List Bytes} {n : Naive} (h : SessionInv p head masterKey seen n) :
    (n.upload.client.history.map Prod.snd).map some =
      seen.map fun c => n.stored.lookup (p.crypto.generateHash c) := by
  have hfst : seen.map (fun c => n.stored.lookup (p.crypto.generateHash c)) =
      (n.upload.client.history.map Prod.fst).map n.stored.lookup := by
    rw [h.history, List.map_map]
    rfl
  rw [hfst, List.map_map, List.map_map]
  apply List.map_congr_left
  intro e he
  exact (h.inMap e he).symm

/-! ## Closing a session -/

/-- Only the enclave's copy of the last container, not `currentSize`, is filled
before the end of the recipe: without that message nothing is handed over. -/
theorem closeSession_none {p : Params} {u : Upload} (hbody : u.client.curContainer.body = []) :
    closeSession p none u = u := by
  simp [closeSession, processLastContainer, hbody]

/-- After the end-of-recipe message the last container is handed over, if there
is anything in it. -/
theorem closeSession_some_written {p : Params} {u : Upload} (head : FileRecipeHead)
    (hbody : u.client.curContainer.body = []) :
    (closeSession p (some head) u).disk.written =
      u.disk.written ++ (if u.client.inContainer = [] then [] else [u.client.pending]) := by
  unfold closeSession processRecipeEnd processTailBatch processLastContainer
  by_cases hnil : u.client.inContainer = [] <;> by_cases hrec : u.client.inRecipe = [] <;>
    simp [hnil, hrec, hbody, finalizeRecipe, flushRecipe, ocallWriteContainer, Client.pending]

theorem closeSession_some_draws {p : Params} {u : Upload} (head : FileRecipeHead) :
    u.disk.draws ≤ (closeSession p (some head) u).disk.draws := by
  unfold closeSession processLastContainer
  dsimp only
  split
  · simp [ocallWriteContainer, processRecipeEnd, processTailBatch]
  · simp [processRecipeEnd, processTailBatch]

/-- Whatever was located is then located in a written container. -/
theorem closeSession_some_located {p : Params} {u : Upload} (head : FileRecipeHead)
    (hbody : u.client.curContainer.body = []) {fp : Bytes} {a : RecipeEntry}
    (hl : Located p (u.disk.written ++ [u.client.pending]) fp a) :
    Located p (closeSession p (some head) u).disk.written fp a := by
  rw [closeSession_some_written head hbody]
  split
  · rename_i hnil
    obtain ⟨c, hc, hs⟩ := hl
    rcases List.mem_append.mp hc with hc | hc
    · exact ⟨c, by simpa using hc, hs⟩
    · rw [List.mem_singleton.mp hc, Client.pending, hnil] at hs
      exact absurd hs not_stores_nil
  · exact hl

theorem closeSession_some_recipeFile {p : Params} {u : Upload} (head : FileRecipeHead) :
    (closeSession p (some head) u).client.recipeFile =
      head.toBytes ++ (processTailBatch p u).client.recipeFile.drop fileRecipeHeadSize := by
  unfold closeSession processLastContainer processRecipeEnd finalizeRecipe
  dsimp only
  split <;> rfl

end Debe
