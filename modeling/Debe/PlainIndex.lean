import Debe.BaselineSender
import Debe.SessionRuns

/-!
# The Baseline server

The Baseline server deduplicates the ciphertext chunks it receives: `PlainIndex` looks the hash
of a chunk up, stores the chunk if there is no address for it, and puts the address into the
recipe.  Next to the recipe a session writes the key recipes that its client sends.

Chunks go straight into the current container, whose size tells at the end of the connection
whether there is something to write.  So a session that breaks off hands its last container over
like one that ends, and what lies in the containers, in the order they were handed over, is
always the payload of every chunk that was new, once.
-/

namespace Debe

open LittleEndian

/-- The counters of `AbsIndex`, but for the compressed size. -/
structure PlainCounters where
  totalRecvDataSize : Nat := 0
  totalBatchNum : Nat := 0
  logicalChunkNum : Nat := 0
  logicalDataSize : Nat := 0
  uniqueChunkNum : Nat := 0
  uniqueDataSize : Nat := 0
  deriving DecidableEq, Repr

/-- What an upload works on: the index, the containers, and the recipe buffer and the two files of
its `ClientVar`. -/
structure PlainUpload where
  index : AList (fun _ : Bytes => RecipeEntry)
  store : BaselineUpload
  inRecipe : List RecipeEntry
  recipeFile : Bytes
  recipeOpen : Bool
  keyRecipeFile : Bytes
  uploadDataSize : UInt64
  counters : PlainCounters

/-- `StorageCore::UpdateRecipeToFile`, for the entries that are in the buffer. -/
def updateRecipeToFile (u : PlainUpload) : Except Fault PlainUpload :=
  if u.recipeOpen then
    .ok { u with
      recipeFile := u.recipeFile ++ entriesToBytes u.inRecipe
      inRecipe := [] }
  else .error (.exitError "recipe file does not open.")

section Index

variable (p : Params)

/-- `AbsIndex::UpdateFileRecipe`. -/
def plainUpdateFileRecipe (chunkAddr : RecipeEntry) (u : PlainUpload) :
    Except Fault PlainUpload :=
  let u := { u with inRecipe := u.inRecipe ++ [chunkAddr] }
  if u.inRecipe.length % p.sendRecipeBatchSize = 0 then updateRecipeToFile u else .ok u

/-- A chunk for which the index has no address: store it and tell the index. -/
def plainStoreChunk (chunk : Bytes) (u : PlainUpload) : RecipeEntry × PlainUpload :=
  let r := baselineProcessUniqueChunk p chunk u.store
  (r.1, { u with
    index := u.index.insert (p.crypto.generateHash chunk) r.1
    store := r.2
    counters := { u.counters with
      uniqueChunkNum := u.counters.uniqueChunkNum + 1
      uniqueDataSize := u.counters.uniqueDataSize + chunk.length } })

/-- The loop body of `PlainIndex::ProcessOneBatch`. -/
def plainChunk (u : PlainUpload) (chunk : Bytes) : Except Fault PlainUpload := do
  let r := match u.index.lookup (p.crypto.generateHash chunk) with
    | some chunkAddr => (chunkAddr, u)
    | none => plainStoreChunk p chunk u
  let u ← plainUpdateFileRecipe p r.1 r.2
  return { u with counters := { u.counters with
    logicalDataSize := u.counters.logicalDataSize + chunk.length
    logicalChunkNum := u.counters.logicalChunkNum + 1 } }

/-- `PlainIndex::ProcessOneBatch` over the chunks it finds in the buffer. -/
def plainProcessOneBatch (stale : Nat → UInt8) (m : BaselineMsg) (u : PlainUpload) :
    Except Fault PlainUpload :=
  (m.chunks stale).foldlM (plainChunk p) { u with counters := { u.counters with
    totalRecvDataSize := u.counters.totalRecvDataSize + m.dataSize.toNat
    totalBatchNum := u.counters.totalBatchNum + 1 } }

/-- `PlainIndex::ProcessTailBatch`. -/
def plainProcessTailBatch (u : PlainUpload) : Except Fault PlainUpload :=
  if u.inRecipe ≠ [] then updateRecipeToFile u else .ok u

/-- `StorageCore::FinalizeRecipe`. -/
def plainFinalizeRecipe (recipeHead : FileRecipeHead) (u : PlainUpload) :
    Except Fault PlainUpload :=
  if u.recipeOpen then
    .ok { u with
      recipeFile := recipeHead.toBytes ++ u.recipeFile.drop fileRecipeHeadSize
      recipeOpen := false }
  else .error (.exitError "recipe file does not open.")

/-- The body of the loop of `DataReceiver::Run`: a message, and what the buffer holds behind it.
A message of another type, for which the source exits, does not exist here. -/
def plainReceive (u : PlainUpload) (m : BaselineMsg × (Nat → UInt8)) :
    Except Fault PlainUpload :=
  match m.1.messageType with
  | .clientUploadChunk => plainProcessOneBatch p m.2 m.1 u
  | .clientUploadRecipe => .ok { u with keyRecipeFile := u.keyRecipeFile ++ m.1.data }
  | .clientUploadRecipeEnd => do
      let recipeHead := FileRecipeHead.ofBytes
        (memBytes (recvMemory m.1.data m.2) 0 fileRecipeHeadSize)
      let u ← plainProcessTailBatch u
      let u ← plainFinalizeRecipe recipeHead u
      return { u with uploadDataSize := recipeHead.fileSize }

/-- After the loop, "process the last container". -/
def plainLastContainer (u : PlainUpload) : PlainUpload :=
  if u.store.curContainer.body ≠ [] then
    let w := ocallWriteContainer p u.store.disk u.store.curContainer
    { u with store := { u.store with curContainer := w.2, disk := w.1 } }
  else u

/-! ## Sessions -/

/-- The server between sessions.  The recipes are found under the path of the file, the key
recipes under that path and a suffix. -/
structure PlainServer where
  index : AList (fun _ : Bytes => RecipeEntry)
  disk : Disk
  compressedDataSize : Nat
  counters : PlainCounters
  recipes : AList (fun _ : Bytes => Bytes)
  keyRecipes : AList (fun _ : Bytes => Bytes)

/-- A server with an empty index and no files. -/
def PlainServer.init : PlainServer where
  index := ∅
  disk := { written := [], draws := 0, saved := [] }
  compressedDataSize := 0
  counters := {}
  recipes := ∅
  keyRecipes := ∅

/-- What a client does between login and the end of its connection.  The head written at login
is uninitialised. -/
structure PlainSession where
  recipePath : Bytes
  virtualRecipeEnd : FileRecipeHead
  msgs : List (BaselineMsg × (Nat → UInt8))

/-- The constructor of `ClientVar`. -/
def plainLogin (srv : PlainServer) (s : PlainSession) : PlainUpload where
  index := srv.index
  store :=
    { curContainer := { containerID := p.uuid srv.disk.draws, body := [] }
      disk := { srv.disk with draws := srv.disk.draws + 1 }
      compressedDataSize := srv.compressedDataSize }
  inRecipe := []
  recipeFile := s.virtualRecipeEnd.toBytes
  recipeOpen := true
  keyRecipeFile := []
  uploadDataSize := 0
  counters := srv.counters

/-- An upload session: login, `DataReceiver::Run`, and the end of the connection. -/
def runPlainSession (srv : PlainServer) (s : PlainSession) : Except Fault PlainServer := do
  let u ← s.msgs.foldlM (plainReceive p) (plainLogin p srv s)
  let u := plainLastContainer p u
  return {
    index := u.index
    disk := u.store.disk
    compressedDataSize := u.store.compressedDataSize
    counters := u.counters
    recipes := srv.recipes.insert s.recipePath u.recipeFile
    keyRecipes := srv.keyRecipes.insert s.recipePath u.keyRecipeFile }

/-- Sessions run one after another. -/
def runPlainSessions (srv : PlainServer) (sessions : List PlainSession) :
    Except Fault PlainServer :=
  sessions.foldlM (runPlainSession p) srv

end Index

end Debe
