import Debe.Session

/-!
# Several clients at once

With `MULTI_CLIENT == 1` every upload session has a thread of its own, and what
the threads share is guarded section by section: the sketch, the top-k index and
the out-enclave index each have a lock, which is released between the sections
of a batch.  `advance` takes one session through its next section; a run is any
sequence of logins and advances.

The store loop needs no lock, since containers and recipe are the client's own.
Here it is one step for each chunk, so that a container handed over in the middle
of a batch is seen by the others at that point.  The statistics are plain
counters that the threads race on; they are counted as if they did not.

A session never ends in the middle of a batch: the thread notices a closed
connection only when it asks for the next message.
-/

namespace Debe

/-- Where a session's thread is: waiting for a message, between two sections of a
batch, past the end-of-recipe message, or back from `DataReceiver::Run`. -/
inductive Stage
  | waiting
  | received (chunks : List Bytes)
  | counted (chunks : List Bytes) (es : List InQueryEntry)
  | looked (chunks : List Bytes) (es : List InQueryEntry) (query : List OutQueryEntry)
  | storing (todo : List (InQueryEntry × Bytes)) (done : List InQueryEntry)
      (outDone outQuery : List OutQueryEntry)
  | updated (query : List OutQueryEntry)
  | ended
  | returned

/-- A session: what its client sends, the batches still to come, and the state of
its thread. -/
structure Slot (p : Params) where
  session : UploadSession p
  rest : List (Batch p)
  client : Client
  stage : Stage

/-- The shared state and the sessions, by number. -/
structure System (p : Params) where
  index : FreqIndex
  out : OutIndex
  disk : Disk
  stats : Stats
  slots : Nat → Option (Slot p)

/-- A server that has just started with empty indexes. -/
def System.init (p : Params) : System p where
  index := .init
  out := ∅
  disk := { written := [], draws := 0, saved := [] }
  stats := {}
  slots := fun _ => none

/-- The upload state as the session's own functions see it. -/
def System.upload {p : Params} (sys : System p) (c : Client) : Upload where
  client := c
  disk := sys.disk
  stats := sys.stats

/-- Put a session's upload state back, with its next stage. -/
def System.put {p : Params} (sys : System p) (i : Nat) (slot : Slot p) (u : Upload)
    (stage : Stage) : System p :=
  { sys with
    disk := u.disk
    stats := u.stats
    slots := Function.update sys.slots i (some { slot with client := u.client, stage := stage }) }

/-- A session whose thread is between two messages takes up the next one, or the
end of its recipe, or notices that the connection is closed. -/
def nextMessage (p : Params) (sys : System p) (i : Nat) (slot : Slot p) : System p :=
  let u := sys.upload slot.client
  match slot.rest with
  | b :: rest =>
      sys.put i { slot with rest := rest } u
        (.received (recvChunks p slot.client.sessionKey (b.msg slot.client.sessionKey)))
  | [] =>
      match slot.session.recipeEnd with
      | some recipeHead => sys.put i slot (processRecipeEnd p recipeHead u) .ended
      | none => sys.put i slot (processLastContainer p u) .returned

/-- One chunk of the store loop. -/
def storeOne (p : Params) (sys : System p) (i : Nat) (slot : Slot p) (ec : InQueryEntry × Bytes)
    (todo : List (InQueryEntry × Bytes)) (done : List InQueryEntry)
    (outDone outQuery : List OutQueryEntry) : Except Fault (System p) := do
  let s ← storeStep p
    { done := done
      outDone := outDone
      outQuery := outQuery
      upload := sys.upload slot.client
      insideDedupChunkNum := sys.index.insideDedupChunkNum
      insideDedupDataSize := sys.index.insideDedupDataSize } ec
  let index := { sys.index with
    insideDedupChunkNum := s.insideDedupChunkNum
    insideDedupDataSize := s.insideDedupDataSize }
  return { sys with index := index }.put i slot s.upload
    (.storing todo s.done s.outDone s.outQuery)

/-- The next section of a session. -/
def advanceSlot (p : Params) (sys : System p) (i : Nat) (slot : Slot p) :
    Except Fault (System p) :=
  let u := sys.upload slot.client
  match slot.stage with
  | .waiting => .ok (nextMessage p sys i slot)
  | .received chunks =>
      let counted := sketchSection sys.index.cmSketch (chunks.map (hashEntry p))
      .ok ({ sys with index := { sys.index with cmSketch := counted.1 } }.put i slot u
        (.counted chunks counted.2))
  | .counted chunks es => do
      let looked ← lookupSection p sys.index.insideDedupIndex es
      return sys.put i slot u (.looked chunks looked.done looked.outQuery)
  | .looked chunks es query =>
      let query := if query ≠ [] then ocallQueryOutIndex sys.out query else query
      .ok (sys.put i slot u (.storing (es.zip chunks) [] [] query))
  | .storing (ec :: todo) done outDone outQuery =>
      storeOne p sys i slot ec todo done outDone outQuery
  | .storing [] done outDone outQuery => do
      let heap ← updateHeapSection p sys.index.insideDedupIndex done
      return { sys with index := { sys.index with insideDedupIndex := heap } }.put i slot u
        (.updated (outDone ++ outQuery))
  | .updated query =>
      let out := if query ≠ [] then ocallUpdateOutIndex sys.out query else sys.out
      .ok ({ sys with out := out }.put i slot u .waiting)
  | .ended => .ok (sys.put i slot (processLastContainer p u) .returned)
  | .returned => .ok sys

/-- What can happen next. -/
inductive Action (p : Params)
  | login (i : Nat) (session : UploadSession p)
  | advance (i : Nat)

/-- One step.  A session number is used once, and advancing a session that does
not exist changes nothing. -/
def System.step (p : Params) (sys : System p) : Action p → Except Fault (System p)
  | .login i session =>
      match sys.slots i with
      | some _ => .ok sys
      | none =>
          let u := login p ⟨sys.index, sys.out, sys.disk, sys.stats, ∅⟩ session
          .ok (sys.put i ⟨session, session.batches, u.client, .waiting⟩ u .waiting)
  | .advance i =>
      match sys.slots i with
      | some slot => advanceSlot p sys i slot
      | none => .ok sys

/-- Any sequence of steps. -/
def System.run (p : Params) (sys : System p) (actions : List (Action p)) :
    Except Fault (System p) :=
  actions.foldlM (System.step p) sys

/-! ## What a step does to a session's upload -/

/-- The three phases of a session that matter to its containers and recipe. -/
inductive Phase
  | running
  | ended
  | returned
  deriving DecidableEq, Repr

def Stage.phase : Stage → Phase
  | .ended => .ended
  | .returned => .returned
  | _ => .running

/-- All that a step can do to a session's own upload state: nothing, put a good
address into the recipe, store a chunk and put its address there, close the
recipe, or leave `DataReceiver::Run`. -/
inductive Effect (p : Params) (good : Bytes → RecipeEntry → Prop)
    (recipeEnd : Option FileRecipeHead) : Phase → Upload → Phase → Upload → Prop
  | quiet (ph : Phase) (u : Upload) : Effect p good recipeEnd ph u ph u
  | reuse {fp : Bytes} {a : RecipeEntry} (size : Nat) (u : Upload) (h : good fp a) :
      Effect p good recipeEnd .running u .running (recordChunk p fp size a u)
  | store {chunk : Bytes} (size : Nat) (u : Upload) (h : chunk.length ≤ maxChunkSize) :
      Effect p good recipeEnd .running u .running
        (recordChunk p (p.crypto.generateHash chunk) size (storeUnique p chunk u).1
          (storeUnique p chunk u).2)
  | tail {head : FileRecipeHead} (u : Upload) (h : recipeEnd = some head) :
      Effect p good recipeEnd .running u .ended (processRecipeEnd p head u)
  | flush (u : Upload) :
      Effect p good recipeEnd .ended u .returned (processLastContainer p u)
  | abort (u : Upload) (h : recipeEnd = none) :
      Effect p good recipeEnd .running u .returned (processLastContainer p u)

/-! ## Fingerprint safety -/

/-- The address was returned by `SaveChunk` for a chunk with this fingerprint. -/
def Saved (d : Disk) (fp : Bytes) (a : RecipeEntry) : Prop :=
  (fp, a) ∈ d.saved

/-- A batch as it was received. -/
structure ReceivedBatch (chunks : List Bytes) : Prop where
  length_le : ∀ c ∈ chunks, c.length ≤ maxChunkSize
  length_lt : chunks.length < 2 ^ 32

/-- The entries are those of the chunks, in order. -/
def HashesOf (p : Params) (chunks : List Bytes) (es : List InQueryEntry) : Prop :=
  es.map InQueryEntry.chunkHash = chunks.map p.crypto.generateHash

/-- What holds of a batch between two of its sections.  Other sessions may change
sketch, heap and indexes in between; of what this session took from them only the
goodness of the addresses matters, and good addresses stay good. -/
def StageInv (p : Params) (good : Bytes → RecipeEntry → Prop) : Stage → Prop
  | .waiting => True
  | .received chunks => ReceivedBatch chunks
  | .counted chunks es => ReceivedBatch chunks ∧ HashesOf p chunks es
  | .looked chunks es query => ReceivedBatch chunks ∧ HashesOf p chunks es ∧ Flagged good es ∧
      query = outQueries p es
  | .storing todo done outDone outQuery => ∃ chunks es, ReceivedBatch chunks ∧
      HashesOf p chunks es ∧ todo = (es.zip chunks).drop done.length ∧
      ∀ u n m, StoreInv p good (fun _ => True) es ⟨done, outDone, outQuery, u, n, m⟩
  | .updated query => ∀ q ∈ query, q.dedupFlag = some .unique →
      GoodPair p good q.chunkHash q.chunkAddr
  | .ended => True
  | .returned => True

theorem StageInv.mono {p : Params} {good good' : Bytes → RecipeEntry → Prop} {stage : Stage}
    (h : StageInv p good stage) (hsub : ∀ fp a, good fp a → good' fp a) :
    StageInv p good' stage := by
  cases stage with
  | waiting => trivial
  | received chunks => exact h
  | counted chunks es => exact h
  | looked chunks es query =>
      obtain ⟨hb, hh, hf, hq⟩ := h
      exact ⟨hb, hh, fun i e he => (hf i e he).mono hsub, hq⟩
  | storing todo done outDone outQuery =>
      obtain ⟨chunks, es, hb, hh, ht, hs⟩ := h
      exact ⟨chunks, es, hb, hh, ht, fun u n m => (hs u n m).mono hsub⟩
  | updated query => exact fun q hq hu => (h q hq hu).mono hsub
  | ended => trivial
  | returned => trivial

/-- One session is safe: its recipe holds good addresses, and its batch is in order. -/
structure SlotSafe (p : Params) (good : Bytes → RecipeEntry → Prop) (slot : Slot p) : Prop where
  history : ∀ e ∈ slot.client.history, good e.1 e.2
  stage : StageInv p good slot.stage

/-- The system is safe: heap, out-enclave index and all sessions hold only
addresses that were saved for the fingerprint they are held under. -/
structure SystemSafe (p : Params) (sys : System p) : Prop where
  heap : HeapGood p (Saved sys.disk) sys.index.insideDedupIndex
  outside : OutGood p (Saved sys.disk) sys.out
  slots : ∀ i slot, sys.slots i = some slot → SlotSafe p (Saved sys.disk) slot

theorem systemSafe_init (p : Params) : SystemSafe p (System.init p) where
  heap := heapGood_empty p _
  outside := outGood_empty p _
  slots := by
    intro i slot h
    cases h

/-- The entries of a batch have fingerprints of the right length. -/
theorem HashesOf.hashed {p : Params} {chunks : List Bytes} {es : List InQueryEntry}
    (h : HashesOf p chunks es) : ∀ e ∈ es, e.chunkHash.length = chunkHashSize := by
  intro e he
  have hmem : e.chunkHash ∈ chunks.map p.crypto.generateHash := h ▸ List.mem_map_of_mem he
  obtain ⟨c, _, hc⟩ := List.mem_map.mp hmem
  rw [← hc, p.crypto.length_generateHash]

theorem HashesOf.length_eq {p : Params} {chunks : List Bytes} {es : List InQueryEntry}
    (h : HashesOf p chunks es) : es.length = chunks.length := by
  simpa using congrArg List.length h

/-- A session that has moved on: the others keep what they had, since saved
addresses stay saved. -/
theorem SystemSafe.put {p : Params} {sys : System p} (h : SystemSafe p sys) {index : FreqIndex}
    {out : OutIndex} {i : Nat} {slot : Slot p} {u : Upload} {stage : Stage}
    (hsub : ∀ fp a, Saved sys.disk fp a → Saved u.disk fp a)
    (hheap : HeapGood p (Saved u.disk) index.insideDedupIndex)
    (hout : OutGood p (Saved u.disk) out)
    (hhist : ∀ e ∈ u.client.history, Saved u.disk e.1 e.2)
    (hstage : StageInv p (Saved u.disk) stage) :
    SystemSafe p ({ sys with index := index, out := out }.put i slot u stage) where
  heap := hheap
  outside := hout
  slots := by
    intro j slot' hj
    by_cases hji : j = i
    · subst hji
      simp only [System.put, Function.update_self, Option.some.injEq] at hj
      subst hj
      exact ⟨hhist, hstage⟩
    · simp only [System.put, Function.update_of_ne hji] at hj
      obtain ⟨hh, hs⟩ := h.slots j slot' hj
      exact ⟨fun e he => hsub _ _ (hh e he), hs.mono hsub⟩

theorem processLastContainer_fields (p : Params) (u : Upload) :
    (processLastContainer p u).disk.saved = u.disk.saved ∧
    (processLastContainer p u).client.history = u.client.history := by
  unfold processLastContainer
  dsimp only
  split <;> exact ⟨rfl, rfl⟩

theorem processRecipeEnd_fields (p : Params) (head : FileRecipeHead) (u : Upload) :
    (processRecipeEnd p head u).disk = u.disk ∧
    (processRecipeEnd p head u).client.history = u.client.history := by
  unfold processRecipeEnd processTailBatch finalizeRecipe flushRecipe
  dsimp only
  refine ⟨rfl, ?_⟩
  split <;> split <;> rfl

/-- The save log after a chunk was stored and recorded. -/
theorem store_saved (p : Params) (chunk : Bytes) (size : Nat) (u : Upload) :
    (recordChunk p (p.crypto.generateHash chunk) size (storeUnique p chunk u).1
      (storeUnique p chunk u).2).disk.saved =
      u.disk.saved ++ [(p.crypto.generateHash chunk, (storeUnique p chunk u).1)] :=
  processUniqueChunk_saved p chunk u

/-- Saved addresses stay saved. -/
theorem Effect.saved {p : Params} {good : Bytes → RecipeEntry → Prop}
    {recipeEnd : Option FileRecipeHead} {ph ph' : Phase} {u u' : Upload}
    (h : Effect p good recipeEnd ph u ph' u') :
    ∀ fp a, Saved u.disk fp a → Saved u'.disk fp a := by
  intro fp a hs
  cases h with
  | quiet => exact hs
  | reuse => exact hs
  | store =>
      rw [Saved, store_saved]
      exact List.mem_append_left _ hs
  | tail =>
      rw [Saved, (processRecipeEnd_fields p _ u).1]
      exact hs
  | flush =>
      rw [Saved, (processLastContainer_fields p u).1]
      exact hs
  | abort =>
      rw [Saved, (processLastContainer_fields p u).1]
      exact hs

/-- A recipe of saved addresses stays one. -/
theorem Effect.history {p : Params} {recipeEnd : Option FileRecipeHead} {ph ph' : Phase}
    {u u' : Upload} (h : Effect p (Saved u.disk) recipeEnd ph u ph' u')
    (hhist : ∀ e ∈ u.client.history, Saved u.disk e.1 e.2) :
    ∀ e ∈ u'.client.history, Saved u'.disk e.1 e.2 := by
  have hsub := h.saved
  have hkeep : ∀ e ∈ u.client.history, Saved u'.disk e.1 e.2 :=
    fun e he => hsub _ _ (hhist e he)
  intro e he
  cases h with
  | quiet => exact hkeep e he
  | @reuse fp a size _ hgood =>
      rw [(recordChunk_history p fp size a u).1] at he
      rcases List.mem_append.mp he with he | he
      · exact hkeep e he
      · rw [List.mem_singleton.mp he]
        exact hgood
  | @store chunk size _ hchunk =>
      have hsame : (storeUnique p chunk u).2.client.history = u.client.history :=
        (processUniqueChunk_recipe p chunk u).2.2.2
      rw [(recordChunk_history p _ size _ _).1, hsame] at he
      rcases List.mem_append.mp he with he | he
      · exact hkeep e he
      · rw [List.mem_singleton.mp he, Saved, store_saved]
        exact List.mem_append_right _ (List.mem_singleton_self _)
  | @tail head _ _ =>
      rw [(processRecipeEnd_fields p head u).2] at he
      exact hkeep e he
  | flush =>
      rw [(processLastContainer_fields p u).2] at he
      exact hkeep e he
  | abort =>
      rw [(processLastContainer_fields p u).2] at he
      exact hkeep e he

/-- Session `i`, and it alone, has moved on, by one of the effects. -/
structure Moved (p : Params) (sys : System p) (i : Nat) (slot : Slot p) (sys' : System p) :
    Prop where
  safe : SystemSafe p sys'
  moved : ∃ slot' : Slot p, sys'.slots = Function.update sys.slots i (some slot') ∧
    slot'.session = slot.session ∧
    Effect p (Saved sys.disk) slot.session.recipeEnd slot.stage.phase (sys.upload slot.client)
      slot'.stage.phase (sys'.upload slot'.client)

section Sections

variable {p : Params} {sys : System p} {i : Nat} {slot : Slot p}

/-- A step that puts the session back after an effect, with heap and out-enclave
index still good. -/
theorem moved_put (h : SystemSafe p sys) (hi : sys.slots i = some slot) {index : FreqIndex}
    {out : OutIndex} {rest : List (Batch p)} {u : Upload} {stage : Stage}
    (heffect : Effect p (Saved sys.disk) slot.session.recipeEnd slot.stage.phase
      (sys.upload slot.client) stage.phase u)
    (hheap : HeapGood p (Saved u.disk) index.insideDedupIndex)
    (hout : OutGood p (Saved u.disk) out) (hstage : StageInv p (Saved u.disk) stage) :
    Moved p sys i slot
      ({ sys with index := index, out := out }.put i { slot with rest := rest } u stage) where
  safe := by
    have hhist := Effect.history (u := sys.upload slot.client) heffect (h.slots i slot hi).history
    exact h.put heffect.saved hheap hout hhist hstage
  moved := ⟨{ slot with rest := rest, client := u.client, stage := stage }, rfl, rfl, heffect⟩

/-- A section that leaves the session's own upload state alone. -/
theorem moved_quiet (h : SystemSafe p sys) (hi : sys.slots i = some slot) {index : FreqIndex}
    {out : OutIndex} {rest : List (Batch p)} {stage : Stage}
    (hphase : slot.stage.phase = stage.phase)
    (hheap : HeapGood p (Saved sys.disk) index.insideDedupIndex)
    (hout : OutGood p (Saved sys.disk) out) (hstage : StageInv p (Saved sys.disk) stage) :
    Moved p sys i slot ({ sys with index := index, out := out }.put i { slot with rest := rest }
      (sys.upload slot.client) stage) :=
  moved_put h hi (hphase ▸ Effect.quiet _ _) hheap hout hstage

/-- An effect on the session's own upload state that leaves heap and out-enclave
index alone: what they hold is still saved. -/
theorem moved_own (h : SystemSafe p sys) (hi : sys.slots i = some slot) {index : FreqIndex}
    (hindex : index.insideDedupIndex = sys.index.insideDedupIndex) {u : Upload} {stage : Stage}
    (heffect : Effect p (Saved sys.disk) slot.session.recipeEnd slot.stage.phase
      (sys.upload slot.client) stage.phase u)
    (hstage : StageInv p (Saved u.disk) stage) :
    Moved p sys i slot ({ sys with index := index }.put i slot u stage) := by
  have hsub : ∀ fp a, Saved sys.disk fp a → Saved u.disk fp a := heffect.saved
  apply moved_put h hi heffect
  · rw [hindex]
    exact h.heap.mono hsub
  · exact h.outside.mono hsub
  · exact hstage

/-- Taking up the next message. -/
theorem nextMessage_moved (h : SystemSafe p sys) (hi : sys.slots i = some slot)
    (hstage : slot.stage = .waiting) : Moved p sys i slot (nextMessage p sys i slot) := by
  have hphase : slot.stage.phase = .running := by rw [hstage]; rfl
  unfold nextMessage
  cases hrest : slot.rest with
  | cons b rest =>
      dsimp only
      apply moved_quiet h hi (by rw [hphase]; rfl) h.heap h.outside
      rw [recvChunks_msg]
      refine ⟨b.length_data_le, ?_⟩
      rw [Batch.data, List.length_map]
      exact b.length_lt
  | nil =>
      cases hend : slot.session.recipeEnd with
      | some head =>
          apply moved_own h hi rfl
          · rw [hphase]
            exact Effect.tail _ hend
          · trivial
      | none =>
          apply moved_own h hi rfl
          · rw [hphase]
            exact Effect.abort _ hend
          · trivial

/-- The top-k lookup section. -/
theorem lookup_moved (h : SystemSafe p sys) (hi : sys.slots i = some slot) {chunks : List Bytes}
    {es : List InQueryEntry} (hstage : slot.stage = .counted chunks es) :
    ∃ looked, lookupSection p sys.index.insideDedupIndex es = .ok looked ∧
      Moved p sys i slot (sys.put i slot (sys.upload slot.client)
        (.looked chunks looked.done looked.outQuery)) := by
  have hinv := (h.slots i slot hi).stage
  rw [hstage] at hinv
  obtain ⟨hbatch, hhashes⟩ := hinv
  have hsmall : es.length < 2 ^ 32 := by
    rw [hhashes.length_eq]
    exact hbatch.length_lt
  obtain ⟨looked, hrun, hlook⟩ := lookupSection_spec h.heap hsmall
  refine ⟨looked, hrun, ?_⟩
  apply moved_quiet h hi (by rw [hstage]; rfl) h.heap h.outside
  exact ⟨hbatch, hlook.hashes.trans hhashes, hlook.flagged, hlook.query⟩

/-- `Ocall_QueryOutIndex`. -/
theorem query_moved (h : SystemSafe p sys) (hi : sys.slots i = some slot) {chunks : List Bytes}
    {es : List InQueryEntry} {query : List OutQueryEntry}
    (hstage : slot.stage = .looked chunks es query) :
    Moved p sys i slot (sys.put i slot (sys.upload slot.client) (.storing (es.zip chunks) [] []
      (if query ≠ [] then ocallQueryOutIndex sys.out query else query))) := by
  have hinv := (h.slots i slot hi).stage
  rw [hstage] at hinv
  obtain ⟨hbatch, hhashes, hflagged, hquery⟩ := hinv
  apply moved_quiet h hi (by rw [hstage]; rfl) h.heap h.outside
  refine ⟨chunks, es, hbatch, hhashes, rfl, fun u n m => ?_⟩
  refine ⟨hhashes.hashed, hflagged, Nat.zero_le _, by simp, ?_, by simp⟩
  dsimp only
  rw [ocallQueryOutIndex_sent, hquery]
  exact h.outside.answered (fun _ _ _ => trivial) hhashes.hashed

/-- One chunk of the store loop. -/
theorem storeOne_moved (h : SystemSafe p sys) (hi : sys.slots i = some slot)
    {ec : InQueryEntry × Bytes} {todo : List (InQueryEntry × Bytes)} {done : List InQueryEntry}
    {outDone outQuery : List OutQueryEntry}
    (hstage : slot.stage = .storing (ec :: todo) done outDone outQuery) :
    ∃ sys', storeOne p sys i slot ec todo done outDone outQuery = .ok sys' ∧
      Moved p sys i slot sys' := by
  have hphase : slot.stage.phase = .running := by rw [hstage]; rfl
  have hinv := (h.slots i slot hi).stage
  rw [hstage] at hinv
  obtain ⟨chunks, es, hbatch, hhashes, htodo, hstore⟩ := hinv
  obtain ⟨e, chunk⟩ := ec
  have hget : (es.zip chunks)[done.length]? = some (e, chunk) := by
    rw [← List.head?_drop, ← htodo, List.head?_cons]
  obtain ⟨he, hc⟩ := List.getElem?_zip_eq_some.mp hget
  have hhash : e.chunkHash = p.crypto.generateHash chunk := by
    have hh := congrArg (·[done.length]?) hhashes
    simpa only [List.getElem?_map, he, hc, Option.map_some, Option.some.injEq] using hh
  have hrest : todo = (es.zip chunks).drop (done.length + 1) := by
    rw [← List.tail_drop, ← htodo, List.tail_cons]
  obtain ⟨s', hrun, hlen, hout⟩ := (hstore (sys.upload slot.client) sys.index.insideDedupChunkNum
    sys.index.insideDedupDataSize).step he chunk
  have hlen' : s'.done.length = done.length + 1 := hlen
  let sys₁ : System p := { sys with index := { sys.index with
    insideDedupChunkNum := s'.insideDedupChunkNum
    insideDedupDataSize := s'.insideDedupDataSize } }
  refine ⟨sys₁.put i slot s'.upload (.storing todo s'.done s'.outDone s'.outQuery), ?_, ?_⟩
  · simp only [storeOne, hrun, bind, Except.bind, pure, Except.pure, sys₁]
  · -- the invariant of the loop does not look at the upload state
    have hstageOf : ∀ good : Bytes → RecipeEntry → Prop,
        StoreInv p good (fun _ => True) es s' →
        StageInv p good (.storing todo s'.done s'.outDone s'.outQuery) := by
      intro good hs
      refine ⟨chunks, es, hbatch, hhashes, by rw [hlen', hrest], fun u n m => ?_⟩
      exact ⟨hs.hashed, hs.flagged, hs.length, hs.resolved, hs.answered, hs.sent⟩
    rcases hout with hreuse | hnew
    · obtain ⟨⟨a, hgood, hup⟩, _, hs⟩ := hreuse
      have heffect : Effect p (Saved sys.disk) slot.session.recipeEnd .running
          (sys.upload slot.client) .running s'.upload := by
        rw [hup]
        exact Effect.reuse _ _ hgood
      apply moved_own h hi (by rfl) (hphase ▸ heffect)
      exact hstageOf _ (hs.mono heffect.saved)
    · have hup := hnew.upload
      rw [hhash] at hup
      have hchunk : chunk.length ≤ maxChunkSize :=
        hbatch.length_le chunk (List.mem_of_getElem? hc)
      have heffect : Effect p (Saved sys.disk) slot.session.recipeEnd .running
          (sys.upload slot.client) .running s'.upload := by
        rw [hup]
        exact Effect.store _ _ hchunk
      have hnewest : Saved s'.upload.disk e.chunkHash
          (storeUnique p chunk (sys.upload slot.client)).1 := by
        rw [hhash, hup, Saved, store_saved]
        exact List.mem_append_right _ (List.mem_singleton_self _)
      apply moved_own h hi (by rfl) (hphase ▸ heffect)
      exact hstageOf _ (hnew.inv _ heffect.saved hnewest)

/-- The top-k update section, after the last chunk of the store loop. -/
theorem update_moved (h : SystemSafe p sys) (hi : sys.slots i = some slot)
    {done : List InQueryEntry} {outDone outQuery : List OutQueryEntry}
    (hstage : slot.stage = .storing [] done outDone outQuery) :
    ∃ heap, updateHeapSection p sys.index.insideDedupIndex done = .ok heap ∧
      Moved p sys i slot ({ sys with index := { sys.index with insideDedupIndex := heap } }.put i
        slot (sys.upload slot.client) (.updated (outDone ++ outQuery))) := by
  have hinv := (h.slots i slot hi).stage
  rw [hstage] at hinv
  obtain ⟨chunks, es, _, hhashes, htodo, hstore⟩ := hinv
  have hs := hstore (sys.upload slot.client) 0 0
  have hend : done.length = es.length := by
    have hle : done.length ≤ es.length := hs.length
    have hlen := congrArg List.length htodo
    simp only [List.length_nil, List.length_drop, List.length_zip, hhashes.length_eq,
      min_self] at hlen
    rw [hhashes.length_eq] at hle ⊢
    omega
  obtain ⟨hdrained, hresolved⟩ := hs.finish hend
  obtain ⟨heap, hrun, hheap⟩ := updateHeapSection_spec h.heap hresolved
  refine ⟨heap, hrun, ?_⟩
  apply moved_quiet h hi (by rw [hstage]; rfl) hheap h.outside
  intro q hq hu
  have hnil : outQuery = [] := hdrained
  rw [hnil, List.append_nil] at hq
  exact hs.sent q hq hu

/-- **One section of one session** takes no exit and keeps the system safe. -/
theorem advanceSlot_moved (h : SystemSafe p sys) (hi : sys.slots i = some slot) :
    ∃ sys', advanceSlot p sys i slot = .ok sys' ∧ Moved p sys i slot sys' := by
  have hinv := (h.slots i slot hi).stage
  unfold advanceSlot
  cases hstage : slot.stage with
  | waiting => exact ⟨_, rfl, nextMessage_moved h hi hstage⟩
  | received chunks =>
      rw [hstage] at hinv
      refine ⟨_, rfl, ?_⟩
      apply moved_quiet h hi (by rw [hstage]; rfl)
      · exact h.heap
      · exact h.outside
      · refine ⟨hinv, ?_⟩
        rw [HashesOf, (sketchSection_fields _ _).1, List.map_map]
        rfl
  | counted chunks es =>
      obtain ⟨looked, hrun, hmoved⟩ := lookup_moved h hi hstage
      exact ⟨_, by simp only [hrun, bind, Except.bind, pure, Except.pure], hmoved⟩
  | looked chunks es query => exact ⟨_, rfl, query_moved h hi hstage⟩
  | storing todo done outDone outQuery =>
      cases todo with
      | cons ec todo => exact storeOne_moved h hi hstage
      | nil =>
          obtain ⟨heap, hrun, hmoved⟩ := update_moved h hi hstage
          exact ⟨_, by simp only [hrun, bind, Except.bind, pure, Except.pure], hmoved⟩
  | updated query =>
      rw [hstage] at hinv
      refine ⟨_, rfl, ?_⟩
      apply moved_quiet h hi (by rw [hstage]; rfl) h.heap
      · rw [ocallUpdateOutIndex_sent]
        exact h.outside.update hinv
      · trivial
  | ended =>
      refine ⟨_, rfl, ?_⟩
      apply moved_own h hi rfl
      · rw [hstage]
        exact Effect.flush _
      · trivial
  | returned =>
      refine ⟨sys, rfl, h, slot, ?_, rfl, Effect.quiet _ _⟩
      rw [← hi, Function.update_eq_self]

end Sections

/-- The slot of a session that has just logged in. -/
def Slot.start {p : Params} (session : UploadSession p) (c : Client) : Slot p :=
  ⟨session, session.batches, c, .waiting⟩

/-- A session has logged in under a number not used before. -/
structure LoggedIn (p : Params) (sys : System p) (i : Nat) (session : UploadSession p)
    (sys' : System p) : Prop where
  free : sys.slots i = none
  slots : sys'.slots = Function.update sys.slots i (some (Slot.start session
    (login p ⟨sys.index, sys.out, sys.disk, sys.stats, ∅⟩ session).client))
  disk : sys'.disk = { sys.disk with draws := sys.disk.draws + 1 }

/-- **All that a step can do**, from a safe system: nothing, let a session in, or
move one session on.  It takes no exit and leaves the system safe. -/
theorem step_cases {p : Params} {sys : System p} (h : SystemSafe p sys) (a : Action p) :
    ∃ sys', System.step p sys a = .ok sys' ∧ SystemSafe p sys' ∧
      (sys' = sys ∨ (∃ i session, LoggedIn p sys i session sys') ∨
        ∃ i slot, sys.slots i = some slot ∧ Moved p sys i slot sys') := by
  cases a with
  | login i session =>
      cases hi : sys.slots i with
      | some slot => exact ⟨sys, by simp only [System.step, hi], h, Or.inl rfl⟩
      | none =>
          let u := login p ⟨sys.index, sys.out, sys.disk, sys.stats, ∅⟩ session
          refine ⟨sys.put i (Slot.start session u.client) u .waiting,
            by simp only [System.step, hi, Slot.start, u], ?_,
            Or.inr (Or.inl ⟨i, session, hi, rfl, rfl⟩)⟩
          refine h.put (u := u) (fun _ _ hs => hs) h.heap h.outside ?_ trivial
          intro e he
          cases he
  | advance i =>
      cases hi : sys.slots i with
      | none => exact ⟨sys, by simp only [System.step, hi], h, Or.inl rfl⟩
      | some slot =>
          obtain ⟨sys', hrun, hmoved⟩ := advanceSlot_moved h hi
          exact ⟨sys', by simp only [System.step, hi, hrun], hmoved.safe,
            Or.inr (Or.inr ⟨i, slot, hi, hmoved⟩)⟩

/-- Every address in a recipe, in the out-enclave index and in the heap was saved
for the fingerprint it is held under, and the heap is a heap without repetitions,
within its bound. -/
structure FingerprintSafe (p : Params) (sys : System p) : Prop where
  recipes : ∀ i slot, sys.slots i = some slot → ∀ e ∈ slot.client.history, e ∈ sys.disk.saved
  outside : ∀ key value, sys.out.lookup key = some value → ∃ fp a,
    key = p.crypto.indexAESCMCEnc p.indexQueryKey fp ∧
    value = p.crypto.aesCBCEnc p.indexQueryKey (RecipeEntry.toBytes a) ∧ (fp, a) ∈ sys.disk.saved
  inside : ∀ fp item, sys.index.insideDedupIndex.index.lookup fp = some item →
    (fp, item.address) ∈ sys.disk.saved
  nodup : sys.index.insideDedupIndex.heap.Nodup
  size : sys.index.insideDedupIndex.size ≤ p.topThreshold
  inv : sys.index.insideDedupIndex.Inv

theorem SystemSafe.fingerprintSafe {p : Params} {sys : System p} (h : SystemSafe p sys) :
    FingerprintSafe p sys where
  recipes := fun i slot hi e he => (h.slots i slot hi).history e he
  outside := by
    intro key value hl
    obtain ⟨fp, a, _, hkey, hvalue, hs⟩ := h.outside key value hl
    exact ⟨fp, a, hkey, hvalue, hs⟩
  inside := by
    intro fp item hl
    apply h.heap.good fp item.chunkFreq item.address
    simp [EntryHeap.entry, hl]
  nodup := h.heap.inv.linked.nodup
  size := h.heap.size
  inv := h.heap.inv

/-- **Fingerprint safety under concurrency.**  Any number of sessions in any
interleaving take no exit and access nothing out of range, and no address ever
stands under a fingerprint it was not saved for. -/
theorem fingerprint_safety (p : Params) (actions : List (Action p)) :
    ∃ sys, System.run p (System.init p) actions = .ok sys ∧ FingerprintSafe p sys := by
  obtain ⟨sys, hrun, hsafe⟩ := Loops.foldlM_ok (f := System.step p) (l := actions)
    (P := fun _ sys => SystemSafe p sys) (systemSafe_init p) (by
      intro _ a _ sys _ hs
      obtain ⟨sys', hstep, hsafe, _⟩ := step_cases hs a
      exact ⟨sys', hstep, hsafe⟩)
  exact ⟨sys, hrun, hsafe.fingerprintSafe⟩

end Debe
