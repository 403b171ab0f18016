import Debe.CMSketch
import Debe.EntryHeap
import Debe.Lib.Loops
import Debe.Storage

/-!
# The frequency index

`EcallFreqIndex::ProcessOneBatch` works in passes: hash every chunk, count the
hashes in the sketch, look every hash up in the batch's own index and in the
top-k heap, ask the out-enclave index about the rest, store what is new while
the recipe is written, and bring the heap up to date.  `EnclaveIndex` then adds
the new addresses to the out-enclave index.  With several clients the passes
are the units that a lock protects, so each is a function of its own here, and
`processOneBatch` runs them in order.

The flags in the query buffers are bytes in the source.  `none` stands for a
byte that is none of the four statuses, as in a buffer that was never written,
so the `default` branches of the source's `switch`es are branches here too.
-/

namespace Debe

open Records

/-- The ways a batch can end without a result: the exits of the source, and a
read or write outside an array. -/
inductive Fault
  | exitError (message : String)
  | outOfRange
  deriving DecidableEq, Repr

/-- `Ocall_SGX_Exit_Error`. -/
def ocallSGXExitError {α : Type} (message : String) : Except Fault α :=
  .error (.exitError message)

/-- A result that exists only for an index in range. -/
def inRange {α : Type} : Option α → Except Fault α
  | some a => .ok a
  | none => .error .outOfRange

theorem inRange_eq_ok {α : Type} {o : Option α} {a : α} : inRange o = .ok a ↔ o = some a := by
  cases o <;> simp [inRange]

/-- The out-enclave index (`InMemoryDatabase`): encrypted fingerprints to
encrypted addresses. -/
abbrev OutIndex := AList (fun _ : Bytes => Bytes)

/-- `InQueryEntry_t`. -/
structure InQueryEntry where
  dedupFlag : Option DedupFlag
  chunkHash : Bytes
  chunkAddr : RecipeEntry
  chunkFreq : Nat
  chunkSize : Nat
  deriving DecidableEq, Repr

/-- `OutQueryEntry_t`.  Hash and address are ciphertexts. -/
structure OutQueryEntry where
  dedupFlag : Option DedupFlag
  chunkHash : Bytes
  chunkAddr : Bytes
  deriving DecidableEq, Repr

/-- The members of `EcallFreqIndex` that outlive a batch. -/
structure FreqIndex where
  cmSketch : CMSketch
  insideDedupIndex : EntryHeap
  insideDedupChunkNum : Nat
  insideDedupDataSize : Nat

/-- The constructor, with `sketchWidth_` and `sketchDepth_`. -/
def FreqIndex.init : FreqIndex where
  cmSketch := .init (256 * 1024) 4
  insideDedupIndex := .empty
  insideDedupChunkNum := 0
  insideDedupDataSize := 0

/-- A `CLIENT_UPLOAD_CHUNK` message as `ProcessOneBatch` reads it. -/
structure UploadMsg where
  currentItemNum : UInt32
  dataBuffer : Bytes
  deriving DecidableEq, Repr

/-- The chunks of a message: decrypt with the session key, then walk
`currentItemNum` size-prefixed records. -/
def recvChunks (p : Params) (sessionKey : Bytes) (msg : UploadMsg) : List Bytes :=
  readRecords msg.currentItemNum.toNat (p.crypto.sessionKeyDec sessionKey msg.dataBuffer)

/-! ## The passes -/

/-- A query entry after the hashing loop.  The address words hold whatever was
there before; they are written before they are read. -/
def hashEntry (p : Params) (chunk : Bytes) : InQueryEntry where
  dedupFlag := none
  chunkHash := p.crypto.generateHash chunk
  chunkAddr := RecipeEntry.ofBytes []
  chunkFreq := 0
  chunkSize := chunk.length

/-- The sketch section: count every hash, and note the estimate after counting. -/
def sketchSection : CMSketch → List InQueryEntry → CMSketch × List InQueryEntry
  | sketch, [] => (sketch, [])
  | sketch, e :: es =>
      let sketch := sketch.update e.chunkHash 1
      let rest := sketchSection sketch es
      (rest.1, { e with chunkFreq := sketch.estimate e.chunkHash } :: rest.2)

/-- The lookup section in mid-loop: the entries already classified, the queries
for the out-enclave index, and `_localIndex`, which is empty between batches. -/
structure LookupState where
  done : List InQueryEntry
  outQuery : List OutQueryEntry
  localIndex : AList (fun _ : Bytes => Nat)

/-- An entry that has to be asked for outside. -/
def queryOutside (p : Params) (s : LookupState) (e : InQueryEntry) : LookupState where
  done := s.done ++ [{ e with
    dedupFlag := some .unique
    chunkAddr := { e.chunkAddr with offset := UInt32.ofNat s.outQuery.length } }]
  outQuery := s.outQuery ++ [{
    dedupFlag := none
    chunkHash := p.crypto.indexAESCMCEnc p.indexQueryKey e.chunkHash
    chunkAddr := [] }]
  localIndex := s.localIndex.insert e.chunkHash s.done.length

/-- An entry whose hash occurred before in the batch.  The address offset becomes
a reference to that earlier entry, which takes over the newer frequency. -/
def backReference (s : LookupState) (e : InQueryEntry) (offset : Nat) (findEntry : InQueryEntry)
    (flag : DedupFlag) : LookupState :=
  { s with done :=
      s.done.set offset { findEntry with chunkFreq := e.chunkFreq } ++ [{ e with
        dedupFlag := some flag
        chunkAddr := { e.chunkAddr with offset := UInt32.ofNat offset } }] }

/-- The body of the lookup loop.  `Contains` and `GetPriority` are one lookup. -/
def lookupStep (p : Params) (heap : EntryHeap) (minFreq : Nat) (s : LookupState)
    (e : InQueryEntry) : Except Fault LookupState :=
  match s.localIndex.lookup e.chunkHash with
  | some offset =>
      match s.done[offset]? with
      | none => .error .outOfRange
      | some findEntry =>
          match findEntry.dedupFlag with
          | some .unique => .ok (backReference s e offset findEntry .tmpUnique)
          | some .duplicate => .ok (backReference s e offset findEntry .tmpDuplicate)
          | _ => ocallSGXExitError "EcallFreqIndex: wrong in-enclave dedup flag"
  | none =>
      if e.chunkFreq < minFreq then .ok (queryOutside p s e)
      else
        match heap.getPriority e.chunkHash with
        | some item => .ok
            { s with
              done := s.done ++ [{ e with dedupFlag := some .duplicate, chunkAddr := item.address }]
              localIndex := s.localIndex.insert e.chunkHash s.done.length }
        | none => .ok (queryOutside p s e)

/-- `minFreq`: the least frequency of a full heap, else zero. -/
def minFreq (p : Params) (heap : EntryHeap) : Except Fault Nat :=
  if heap.size = p.topThreshold then inRange heap.topEntry else .ok 0

/-- The top-k lookup section. -/
def lookupSection (p : Params) (heap : EntryHeap) (es : List InQueryEntry) :
    Except Fault LookupState := do
  let freq ← minFreq p heap
  es.foldlM (lookupStep p heap freq) { done := [], outQuery := [], localIndex := ∅ }

/-- `Ocall_QueryOutIndex`. -/
def ocallQueryOutIndex (out : OutIndex) (query : List OutQueryEntry) : List OutQueryEntry :=
  query.map fun entry =>
    match out.lookup entry.chunkHash with
    | some addr => { entry with dedupFlag := some .duplicate, chunkAddr := addr }
    | none => { entry with dedupFlag := some .unique }

/-- The store loop in mid-run: the entries and queries already passed, the
queries to come, and the client's state. -/
structure StoreState where
  done : List InQueryEntry
  outDone : List OutQueryEntry
  outQuery : List OutQueryEntry
  upload : Upload
  insideDedupChunkNum : Nat
  insideDedupDataSize : Nat

/-- The whole out-enclave query buffer. -/
def StoreState.outQueryBase (s : StoreState) : List OutQueryEntry := s.outDone ++ s.outQuery

/-- The end of the loop body: the address goes into the recipe, the entry and
the logical counters move on. -/
def finishChunk (p : Params) (s : StoreState) (e : InQueryEntry) (chunkAddr : RecipeEntry) :
    StoreState :=
  { s with
    done := s.done ++ [e]
    upload := recordChunk p e.chunkHash e.chunkSize chunkAddr s.upload }

/-- A chunk found inside the enclave. -/
def countInside (s : StoreState) (e : InQueryEntry) : StoreState :=
  { s with
    insideDedupChunkNum := s.insideDedupChunkNum + 1
    insideDedupDataSize := s.insideDedupDataSize + e.chunkSize }

/-- The body of the store loop, for an entry and its chunk. -/
def storeStep (p : Params) (s : StoreState) (ec : InQueryEntry × Bytes) :
    Except Fault StoreState :=
  let e := ec.1
  match e.dedupFlag with
  | some .duplicate => .ok (finishChunk p (countInside s e) e e.chunkAddr)
  | some .tmpDuplicate | some .tmpUnique =>
      match s.done[e.chunkAddr.offset.toNat]? with
      | some tmpQueryEntry => .ok (finishChunk p (countInside s e) e tmpQueryEntry.chunkAddr)
      | none => .error .outOfRange
  | some .unique =>
      match s.outQuery with
      | [] => .error .outOfRange
      | q :: rest =>
          match q.dedupFlag with
          | some .duplicate =>
              let chunkAddr := RecipeEntry.ofBytes (p.crypto.aesCBCDec p.indexQueryKey q.chunkAddr)
              .ok (finishChunk p { s with outDone := s.outDone ++ [q], outQuery := rest }
                { e with chunkAddr := chunkAddr } chunkAddr)
          | some .unique =>
              let r := storeUnique p ec.2 s.upload
              let cipher := p.crypto.aesCBCEnc p.indexQueryKey r.1.toBytes
              .ok (finishChunk p
                { s with
                  outDone := s.outDone ++ [{ q with chunkAddr := cipher }]
                  outQuery := rest
                  upload := r.2 }
                { e with chunkAddr := r.1 } r.1)
          | _ => ocallSGXExitError "EcallFreqIndex: wrong out-enclave dedup flag"
  | none => ocallSGXExitError "EcallFreqIndex: wrong chunk status flag"

/-- `CheckIfAddToHeap`. -/
def checkIfAddToHeap (p : Params) (heap : EntryHeap) (chunkFreq : Nat) : Except Fault Bool :=
  if heap.size < p.topThreshold then .ok true
  else do
    let currentMin ← inRange heap.topEntry
    return decide (currentMin ≤ chunkFreq)

/-- The first half of `AddChunkToHeap`: a full heap loses its least entry. -/
def makeRoom (p : Params) (heap : EntryHeap) : Except Fault EntryHeap :=
  if heap.size = p.topThreshold then inRange heap.pop else .ok heap

/-- `AddChunkToHeap`. -/
def addChunkToHeap (p : Params) (heap : EntryHeap) (chunkFreq : Nat) (chunkAddr : RecipeEntry)
    (chunkFp : Bytes) : Except Fault EntryHeap := do
  let heap ← makeRoom p heap
  inRange (heap.add chunkFp { address := chunkAddr, chunkFreq := chunkFreq, idx := 0 })

/-- The body of the heap update loop. -/
def updateHeapStep (p : Params) (heap : EntryHeap) (e : InQueryEntry) : Except Fault EntryHeap :=
  if e.dedupFlag = some .unique ∨ e.dedupFlag = some .duplicate then do
    if ← checkIfAddToHeap p heap e.chunkFreq then
      if heap.contains e.chunkHash then inRange (heap.update e.chunkHash e.chunkFreq)
      else addChunkToHeap p heap e.chunkFreq e.chunkAddr e.chunkHash
    else return heap
  else return heap

/-- The top-k update section. -/
def updateHeapSection (p : Params) (heap : EntryHeap) (es : List InQueryEntry) :
    Except Fault EntryHeap :=
  es.foldlM (updateHeapStep p) heap

/-- `Ocall_UpdateOutIndex`. -/
def ocallUpdateOutIndex (out : OutIndex) (query : List OutQueryEntry) : OutIndex :=
  query.foldl (fun out entry =>
    if entry.dedupFlag = some .unique then out.insert entry.chunkHash entry.chunkAddr else out) out

/-- An empty query list is not sent, which makes no difference. -/
theorem ocallQueryOutIndex_sent (out : OutIndex) (query : List OutQueryEntry) :
    (if query ≠ [] then ocallQueryOutIndex out query else query) =
      ocallQueryOutIndex out query := by
  cases query with
  | nil => rfl
  | cons q qs => rw [if_pos (List.cons_ne_nil q qs)]

/-- Nor is an empty list of updates. -/
theorem ocallUpdateOutIndex_sent (out : OutIndex) (query : List OutQueryEntry) :
    (if query ≠ [] then ocallUpdateOutIndex out query else out) =
      ocallUpdateOutIndex out query := by
  cases query with
  | nil => rfl
  | cons q qs => rw [if_pos (List.cons_ne_nil q qs)]

/-! ## One batch -/

/-- The store loop over all entries and chunks of a batch. -/
def storeLoop (p : Params) (idx : FreqIndex) (query : List OutQueryEntry)
    (es : List InQueryEntry) (chunks : List Bytes) (u : Upload) : Except Fault StoreState :=
  (es.zip chunks).foldlM (storeStep p)
    { done := []
      outDone := []
      outQuery := query
      upload := u
      insideDedupChunkNum := idx.insideDedupChunkNum
      insideDedupDataSize := idx.insideDedupDataSize }

/-- The batched `EcallFreqIndex::ProcessOneBatch` followed, as in
`EnclaveIndex::ProcessOneBatch`, by the update of the out-enclave index. -/
def processOneBatch (p : Params) (idx : FreqIndex) (out : OutIndex) (msg : UploadMsg)
    (u : Upload) : Except Fault (FreqIndex × OutIndex × Upload) := do
  let chunks := recvChunks p u.client.sessionKey msg
  let counted := sketchSection idx.cmSketch (chunks.map (hashEntry p))
  let looked ← lookupSection p idx.insideDedupIndex counted.2
  let query := if looked.outQuery ≠ [] then ocallQueryOutIndex out looked.outQuery
    else looked.outQuery
  let stored ← storeLoop p idx query looked.done chunks u
  let heap ← updateHeapSection p idx.insideDedupIndex stored.done
  let query := stored.outQueryBase
  let out := if query ≠ [] then ocallUpdateOutIndex out query else out
  return ({ cmSketch := counted.1
            insideDedupIndex := heap
            insideDedupChunkNum := stored.insideDedupChunkNum
            insideDedupDataSize := stored.insideDedupDataSize }, out, stored.upload)

/-! ## One batch, with any row positions

The same passes over a sketch whose positions are a parameter.  They also hand out the
state after the lookup section: the statuses and the queries of the batch. -/

/-- The sketch section with the positions `rowPos`. -/
def sketchSectionAt (rowPos : Bytes → Nat → Nat) :
    CMSketch → List InQueryEntry → CMSketch × List InQueryEntry
  | sketch, [] => (sketch, [])
  | sketch, e :: es =>
      let sketch := sketch.updateAt rowPos e.chunkHash 1
      let rest := sketchSectionAt rowPos sketch es
      (rest.1, { e with chunkFreq := sketch.estimateAt rowPos e.chunkHash } :: rest.2)

/-- `processOneBatch` with the positions `rowPos`. -/
def processOneBatchAt (rowPos : Bytes → Nat → Nat) (p : Params) (idx : FreqIndex)
    (out : OutIndex) (msg : UploadMsg) (u : Upload) :
    Except Fault ((FreqIndex × OutIndex × Upload) × LookupState) := do
  let chunks := recvChunks p u.client.sessionKey msg
  let counted := sketchSectionAt rowPos idx.cmSketch (chunks.map (hashEntry p))
  let looked ← lookupSection p idx.insideDedupIndex counted.2
  let query := if looked.outQuery ≠ [] then ocallQueryOutIndex out looked.outQuery
    else looked.outQuery
  let stored ← storeLoop p idx query looked.done chunks u
  let heap ← updateHeapSection p idx.insideDedupIndex stored.done
  let query := stored.outQueryBase
  let out := if query ≠ [] then ocallUpdateOutIndex out query else out
  return (({ cmSketch := counted.1
             insideDedupIndex := heap
             insideDedupChunkNum := stored.insideDedupChunkNum
             insideDedupDataSize := stored.insideDedupDataSize }, out, stored.upload), looked)

theorem sketchSection_eq_at (sketch : CMSketch) (es : List InQueryEntry) :
    sketchSection sketch es = sketchSectionAt sketch.pos sketch es := by
  induction es generalizing sketch with
  | nil => rfl
  | cons e es ih =>
      rw [sketchSection, sketchSectionAt, ih, CMSketch.update_pos, ← CMSketch.update_eq_updateAt]
      rfl

/-- The enclave's batch is the one with the enclave's positions. -/
theorem processOneBatch_eq_at (p : Params) (idx : FreqIndex) (out : OutIndex) (msg : UploadMsg)
    (u : Upload) :
    processOneBatch p idx out msg u =
      (processOneBatchAt idx.cmSketch.pos p idx out msg u).map Prod.fst := by
  simp only [processOneBatch, processOneBatchAt, sketchSection_eq_at, bind, Except.bind, pure,
    Except.pure]
  cases lookupSection p idx.insideDedupIndex (sketchSectionAt idx.cmSketch.pos idx.cmSketch
    ((recvChunks p u.client.sessionKey msg).map (hashEntry p))).2 with
  | error fault => rfl
  | ok looked =>
      dsimp only
      cases storeLoop p idx (if looked.outQuery ≠ [] then ocallQueryOutIndex out looked.outQuery
        else looked.outQuery) looked.done (recvChunks p u.client.sessionKey msg) u with
      | error fault => rfl
      | ok stored =>
          dsimp only
          cases updateHeapSection p idx.insideDedupIndex stored.done with
          | error fault => rfl
          | ok heap => rfl

end Debe
