import Debe.Concurrent
import Debe.SessionRuns

/-!
# Where the chunks of a completed upload are

A session publishes an address in the shared indexes as soon as its batch is
done, while the chunk itself may stay in the session's in-enclave container until
that is full or the session ends.  Another session that finds the address puts it
into its own recipe, and can complete its upload first.  So from the moment an
upload has completed its recipe refers to containers on disk, or to the container
that a session not yet completed is filling; whether the latter reaches the disk
depends on that session.

The invariant: every address ever saved lies in a written container or in the
in-enclave container of a session that has not completed.
-/

namespace Debe

/-- Past `DataReceiver::Run`, with the end-of-recipe message processed. -/
def Completed (ph : Phase) (recipeEnd : Option FileRecipeHead) : Prop :=
  ph = .returned ∧ recipeEnd.isSome

def Slot.Completed {p : Params} (slot : Slot p) : Prop :=
  Debe.Completed slot.stage.phase slot.session.recipeEnd

/-- The containers and the recipe of a session in each of its phases. -/
structure ClientInOrder (p : Params) (session : UploadSession p) (ph : Phase) (c : Client) :
    Prop where
  room : c.inContainer.length < maxContainerSize
  key : c.masterKey = session.masterKey
  running : ph = .running →
    c.curContainer.body = [] ∧ RecipeInv p session.virtualRecipeEnd c
  ended : ph = .ended → c.curContainer.body = c.inContainer
  recipe : ph ≠ .running → ∀ head, session.recipeEnd = some head →
    readRecipe p c.masterKey c.recipeFile = (head, c.history.map Prod.snd)

/-- A chunk is on disk, or in the container of a session that has not completed. -/
def HeldBy (p : Params) (recipeEnd : Option FileRecipeHead) (ph : Phase) (u : Upload) (fp : Bytes)
    (a : RecipeEntry) : Prop :=
  Located p u.disk.written fp a ∨
    (¬ Completed ph recipeEnd ∧ Stores p u.client.pending fp a)

/-- What an effect does to stored chunks: none is lost, and new ones are held. -/
structure Holds (p : Params) (recipeEnd : Option FileRecipeHead) (ph : Phase) (u : Upload)
    (ph' : Phase) (u' : Upload) : Prop where
  written : u.disk.written <+: u'.disk.written
  keep : ¬ Completed ph recipeEnd → ∀ fp a, Stores p u.client.pending fp a →
    HeldBy p recipeEnd ph' u' fp a
  saved : ∀ e ∈ u'.disk.saved, e ∈ u.disk.saved ∨ HeldBy p recipeEnd ph' u' e.1 e.2

section Effects

variable {p : Params} {recipeEnd : Option FileRecipeHead} {u u' : Upload}

theorem not_completed_running : ¬ Completed .running recipeEnd := by
  intro h
  cases h.1

/-- What is located in a running session is held by it. -/
theorem HeldBy.of_located {fp : Bytes} {a : RecipeEntry}
    (h : Located p (u.disk.written ++ [u.client.pending]) fp a) :
    HeldBy p recipeEnd .running u fp a := by
  obtain ⟨c, hc, hs⟩ := h
  rcases List.mem_append.mp hc with hc | hc
  · exact Or.inl ⟨c, hc, hs⟩
  · rw [List.mem_singleton.mp hc] at hs
    exact Or.inr ⟨not_completed_running, hs⟩

/-- A storing step holds everything. -/
theorem StoreStep.holds (h : StoreStep p u u') : Holds p recipeEnd .running u .running u' where
  written := h.written
  keep := fun _ fp a hs => HeldBy.of_located (h.keep fp a hs)
  saved := by
    intro e he
    obtain ⟨log, hsaved, hlog⟩ := h.saved
    rw [hsaved] at he
    rcases List.mem_append.mp he with he | he
    · exact Or.inl he
    · exact Or.inr (HeldBy.of_located (hlog e he))

/-- `ProcessTailBatch` and `FinalizeRecipe`: the container is handed to the outside
buffer, the recipe is closed, and nothing else changes. -/
theorem processRecipeEnd_client (p : Params) (head : FileRecipeHead)
    (hbody : u.client.curContainer.body = []) :
    (processRecipeEnd p head u).client.pending = u.client.pending ∧
    (processRecipeEnd p head u).client.inContainer = u.client.inContainer ∧
    (processRecipeEnd p head u).client.masterKey = u.client.masterKey ∧
    (processRecipeEnd p head u).client.curContainer.body = u.client.inContainer := by
  unfold processRecipeEnd processTailBatch finalizeRecipe flushRecipe Client.pending
  by_cases hrec : u.client.inRecipe = [] <;> by_cases hin : u.client.inContainer = [] <;>
    simp [hrec, hin, hbody]

/-- Leaving `DataReceiver::Run` with an empty outside buffer changes nothing. -/
theorem processLastContainer_of_empty (hbody : u.client.curContainer.body = []) :
    processLastContainer p u = u := by
  simp [processLastContainer, hbody]

/-- Leaving it with a container in the buffer writes that container. -/
theorem processLastContainer_written (hbody : u.client.curContainer.body = u.client.inContainer) :
    (processLastContainer p u).disk.written =
      u.disk.written ++ (if u.client.inContainer = [] then [] else [u.client.pending]) := by
  have hpending : u.client.curContainer = u.client.pending := by
    rw [Client.pending, ← hbody]
  unfold processLastContainer
  rw [hbody]
  by_cases hin : u.client.inContainer = []
  · simp [hin]
  · simp [hin, ocallWriteContainer, hpending]

theorem processLastContainer_client (p : Params) (u : Upload) :
    (processLastContainer p u).client.inContainer = u.client.inContainer ∧
    (processLastContainer p u).client.masterKey = u.client.masterKey ∧
    (processLastContainer p u).client.recipeFile = u.client.recipeFile ∧
    (processLastContainer p u).client.history = u.client.history := by
  unfold processLastContainer
  dsimp only
  split <;> exact ⟨rfl, rfl, rfl, rfl⟩

variable {session : UploadSession p} {ph ph' : Phase} {good : Bytes → RecipeEntry → Prop}

/-- Putting an address into the recipe is a storing step and keeps the order. -/
theorem recordChunk_inOrder (h : ClientInOrder p session .running u.client) (fp : Bytes)
    (size : Nat) (a : RecipeEntry) :
    ClientInOrder p session .running (recordChunk p fp size a u).client := by
  have hstep := recordChunk_storeStep p fp size a h.room
  obtain ⟨hbody, hrecipe⟩ := h.running rfl
  exact {
    room := hstep.room
    key := (recordChunk_history p fp size a u).2.trans h.key
    running := fun _ => ⟨hstep.body hbody, hrecipe.update fp a⟩
    ended := fun hph => by cases hph
    recipe := fun hph => absurd rfl hph }

theorem storeUnique_inOrder (h : ClientInOrder p session .running u.client) {chunk : Bytes}
    (hchunk : chunk.length ≤ maxChunkSize) :
    ClientInOrder p session .running (storeUnique p chunk u).2.client := by
  obtain ⟨hstep, _⟩ := storeUnique_spec p hchunk h.room
  obtain ⟨hrec, hfile, hkey, hhist⟩ := processUniqueChunk_recipe p chunk u
  obtain ⟨hbody, hrecipe⟩ := h.running rfl
  exact {
    room := hstep.room
    key := hkey.trans h.key
    running := fun _ => ⟨hstep.body hbody, hrecipe.congr hfile hkey hrec hhist⟩
    ended := fun hph => by cases hph
    recipe := fun hph => absurd rfl hph }

/-- Leaving `DataReceiver::Run` with a recipe that is closed, or without one. -/
theorem processLastContainer_inOrder (hc : ClientInOrder p session ph u.client)
    (hrecipe : ∀ head, session.recipeEnd = some head →
      readRecipe p u.client.masterKey u.client.recipeFile =
        (head, u.client.history.map Prod.snd)) :
    ClientInOrder p session .returned (processLastContainer p u).client := by
  obtain ⟨hin, hkey, hfile, hhist⟩ := processLastContainer_client p u
  exact {
    room := by rw [hin]; exact hc.room
    key := hkey.trans hc.key
    running := fun hph => by cases hph
    ended := fun hph => by cases hph
    recipe := by
      intro _ head hhead
      rw [hkey, hfile, hhist]
      exact hrecipe head hhead }

/-- **Every effect keeps a session in order.** -/
theorem Effect.inOrder (h : Effect p good session.recipeEnd ph u ph' u')
    (hc : ClientInOrder p session ph u.client) : ClientInOrder p session ph' u'.client := by
  cases h with
  | quiet => exact hc
  | reuse => exact recordChunk_inOrder hc _ _ _
  | store _ _ hchunk => exact recordChunk_inOrder (storeUnique_inOrder hc hchunk) _ _ _
  | @tail head _ hend =>
      obtain ⟨hbody, hrecipe⟩ := hc.running rfl
      obtain ⟨_, hin, hkey, hcur⟩ := processRecipeEnd_client p head hbody
      exact {
        room := by rw [hin]; exact hc.room
        key := hkey.trans hc.key
        running := fun hph => by cases hph
        ended := fun _ => by rw [hcur, hin]
        recipe := by
          intro _ head' hhead
          rw [hend] at hhead
          cases hhead
          rw [hkey, (processRecipeEnd_fields p head u).2]
          exact hrecipe.read_final }
  | flush => exact processLastContainer_inOrder hc (hc.recipe (by decide))
  | abort _ hend =>
      refine processLastContainer_inOrder hc fun head hhead => ?_
      rw [hend] at hhead
      cases hhead

/-- **Every effect holds on to the stored chunks.**  The one effect that completes
a session is the one that writes its container. -/
theorem Effect.holds (h : Effect p good session.recipeEnd ph u ph' u')
    (hc : ClientInOrder p session ph u.client) : Holds p session.recipeEnd ph u ph' u' := by
  cases h with
  | quiet =>
      exact ⟨List.prefix_rfl, fun hnot fp a hs => Or.inr ⟨hnot, hs⟩, fun e he => Or.inl he⟩
  | reuse => exact (recordChunk_storeStep p _ _ _ hc.room).holds
  | store _ _ hchunk =>
      obtain ⟨hstep, _⟩ := storeUnique_spec p hchunk hc.room
      exact (hstep.trans (recordChunk_storeStep p _ _ _ hstep.room)).holds
  | @tail head _ _ =>
      obtain ⟨hpending, _⟩ := processRecipeEnd_client p head (hc.running rfl).1
      have hdisk := (processRecipeEnd_fields p head u).1
      refine ⟨hdisk ▸ List.prefix_rfl, fun _ fp a hs => Or.inr ⟨?_, ?_⟩, ?_⟩
      · intro hcompleted
        cases hcompleted.1
      · rw [hpending]
        exact hs
      · intro e he
        rw [hdisk] at he
        exact Or.inl he
  | flush =>
      have hwritten := processLastContainer_written (p := p) (hc.ended rfl)
      refine ⟨by rw [hwritten]; exact List.prefix_append _ _, fun _ fp a hs => Or.inl ?_, ?_⟩
      · have hne : u.client.inContainer ≠ [] := by
          intro hnil
          rw [Client.pending, hnil] at hs
          exact not_stores_nil hs
        rw [hwritten, if_neg hne]
        exact ⟨_, List.mem_append_right _ (List.mem_singleton_self _), hs⟩
      · intro e he
        rw [(processLastContainer_fields p u).1] at he
        exact Or.inl he
  | abort _ hend =>
      rw [processLastContainer_of_empty (hc.running rfl).1]
      refine ⟨List.prefix_rfl, fun _ fp a hs => Or.inr ⟨fun h => ?_, hs⟩, fun e he => Or.inl he⟩
      have hsome := h.2
      rw [hend] at hsome
      cases hsome

end Effects

/-- Every session is in order, and every saved address is on disk or in the
container of a session that has not completed. -/
structure SystemHolds (p : Params) (sys : System p) : Prop where
  slots : ∀ i slot, sys.slots i = some slot →
    ClientInOrder p slot.session slot.stage.phase slot.client
  saved : ∀ e ∈ sys.disk.saved, Located p sys.disk.written e.1 e.2 ∨
    ∃ j slot, sys.slots j = some slot ∧ ¬ slot.Completed ∧ Stores p slot.client.pending e.1 e.2

theorem systemHolds_init (p : Params) : SystemHolds p (System.init p) where
  slots := by
    intro i slot h
    cases h
  saved := by
    intro e he
    cases he

/-- A login stores nothing. -/
theorem SystemHolds.loggedIn {p : Params} {sys sys' : System p} (h : SystemHolds p sys) {i : Nat}
    {session : UploadSession p} (hlogin : LoggedIn p sys i session sys') :
    SystemHolds p sys' where
  slots := by
    intro j slot hj
    rw [hlogin.slots] at hj
    by_cases hji : j = i
    · subst hji
      rw [Function.update_self] at hj
      cases hj
      exact {
        room := by simp [Slot.start, login, maxContainerSize]
        key := rfl
        running := fun _ => ⟨rfl, [], by simp, by simp [Slot.start, login], rfl,
          p.sendRecipeBatchSize_pos⟩
        ended := fun hph => by cases hph
        recipe := fun hph => absurd rfl hph }
    · rw [Function.update_of_ne hji] at hj
      exact h.slots j slot hj
  saved := by
    intro e he
    rw [hlogin.disk] at he
    rw [hlogin.disk, hlogin.slots]
    rcases h.saved e he with hl | hl
    · exact Or.inl hl
    · obtain ⟨j, slot, hj, hnot, hs⟩ := hl
      have hji : j ≠ i := by
        intro heq
        rw [heq, hlogin.free] at hj
        cases hj
      exact Or.inr ⟨j, slot, by rw [Function.update_of_ne hji]; exact hj, hnot, hs⟩

/-- A session that moves on holds on to what it had. -/
theorem SystemHolds.moved {p : Params} {sys sys' : System p} (h : SystemHolds p sys) {i : Nat}
    {slot : Slot p} (hi : sys.slots i = some slot) (hmoved : Moved p sys i slot sys') :
    SystemHolds p sys' := by
  obtain ⟨slot', hslots, hsession, heffect⟩ := hmoved.moved
  have horder := h.slots i slot hi
  have hholds := Effect.holds (u := sys.upload slot.client) heffect horder
  have hself : sys'.slots i = some slot' := by rw [hslots, Function.update_self]
  -- what session `i` holds after its step is held in the system
  have hheld : ∀ fp a, HeldBy p slot.session.recipeEnd slot'.stage.phase
      (sys'.upload slot'.client) fp a → Located p sys'.disk.written fp a ∨
      ∃ j slot, sys'.slots j = some slot ∧ ¬ slot.Completed ∧
        Stores p slot.client.pending fp a := by
    intro fp a hh
    rcases hh with hl | hs
    · exact Or.inl hl
    · refine Or.inr ⟨i, slot', hself, ?_, hs.2⟩
      rw [Slot.Completed, hsession]
      exact hs.1
  constructor
  · intro j slot₁ hj
    by_cases hji : j = i
    · subst hji
      rw [hself] at hj
      cases hj
      rw [hsession]
      exact Effect.inOrder (u := sys.upload slot.client) heffect horder
    · rw [hslots, Function.update_of_ne hji] at hj
      exact h.slots j slot₁ hj
  · intro e he
    rcases hholds.saved e he with hold | hnew
    · rcases h.saved e hold with hl | hl
      · exact Or.inl (hl.mono fun c hc => hholds.written.subset hc)
      · obtain ⟨j, slot₁, hj, hnot, hs⟩ := hl
        by_cases hji : j = i
        · subst hji
          rw [hi] at hj
          cases hj
          exact hheld _ _ (hholds.keep hnot _ _ hs)
        · refine Or.inr ⟨j, slot₁, ?_, hnot, hs⟩
          rw [hslots, Function.update_of_ne hji]
          exact hj
    · exact hheld _ _ hnew

/-- Every reachable state is safe and holds all saved chunks. -/
theorem run_holds (p : Params) (actions : List (Action p)) :
    ∃ sys, System.run p (System.init p) actions = .ok sys ∧ SystemSafe p sys ∧
      SystemHolds p sys :=
  Loops.foldlM_ok (f := System.step p) (P := fun _ sys => SystemSafe p sys ∧ SystemHolds p sys)
    ⟨systemSafe_init p, systemHolds_init p⟩ (by
      intro _ a _ sys _ hs
      obtain ⟨sys', hstep, hsafe, hcases⟩ := step_cases hs.1 a
      refine ⟨sys', hstep, hsafe, ?_⟩
      rcases hcases with heq | hlogin | hmove
      · rw [heq]
        exact hs.2
      · obtain ⟨i, session, hlogin⟩ := hlogin
        exact hs.2.loggedIn hlogin
      · obtain ⟨i, slot, hi, hmoved⟩ := hmove
        exact hs.2.moved hi hmoved)

/-- The byte range of an address, IV included, lies inside the container that a
session is filling in the enclave. -/
def InsidePending (c : Client) (a : RecipeEntry) : Prop :=
  c.pending.containerID = a.containerName ∧
    a.offset.toNat + a.length.toNat + cryptoBlockSize ≤ c.pending.body.length

/-- **Where a completed upload is.**  In every interleaving of any number of
sessions, once a session has completed, every address that a restore reads from
its recipe lies in a container saved to file, or in the in-enclave container of
another session that has not completed. -/
theorem completed_upload_located (p : Params) (actions : List (Action p)) :
    ∃ sys, System.run p (System.init p) actions = .ok sys ∧
      ∀ i slot head, sys.slots i = some slot → slot.stage = .returned →
        slot.session.recipeEnd = some head →
        ∃ entries, readRecipe p slot.session.masterKey slot.client.recipeFile = (head, entries) ∧
          ∀ a ∈ entries, InsideWritten sys.disk a ∨
            ∃ j other, j ≠ i ∧ sys.slots j = some other ∧ ¬ other.Completed ∧
              InsidePending other.client a := by
  obtain ⟨sys, hrun, hsafe, hholds⟩ := run_holds p actions
  refine ⟨sys, hrun, ?_⟩
  intro i slot head hi hstage hhead
  have hphase : slot.stage.phase = .returned := by rw [hstage]; rfl
  have horder := hholds.slots i slot hi
  refine ⟨slot.client.history.map Prod.snd, ?_, ?_⟩
  · rw [← horder.key]
    exact horder.recipe (by rw [hphase]; decide) head hhead
  · intro a ha
    obtain ⟨e, he, rfl⟩ := List.mem_map.mp ha
    rcases hholds.saved e ((hsafe.slots i slot hi).history e he) with hl | hl
    · exact Or.inl hl.insideWritten
    · obtain ⟨j, other, hj, hnot, hs⟩ := hl
      refine Or.inr ⟨j, other, ?_, hj, hnot, hs.1, hs.inside⟩
      intro hji
      rw [hji, hi] at hj
      cases hj
      exact hnot ⟨hphase, by rw [hhead]; rfl⟩

/-- The second of two sessions that bring the same chunk, one batch each. -/
def secondSession : UploadSession smallParams :=
  { smallSession (some ⟨1, 1⟩) with recipePath := [8] }

/-- Session 0 stores and publishes a chunk; session 1 finds the address and
completes its upload while the chunk is still in the first one's container: no
container has been written. -/
theorem completed_upload_dangles :
    ∃ sys slot a, System.run smallParams (System.init smallParams)
        ([.login 0 (smallSession (some ⟨1, 1⟩))] ++ List.replicate 7 (.advance 0) ++
          [.login 1 secondSession] ++ List.replicate 9 (.advance 1)) = .ok sys ∧
      sys.slots 1 = some slot ∧ slot.stage = .returned ∧
      slot.session.recipeEnd = some ⟨1, 1⟩ ∧
      readRecipe smallParams slot.session.masterKey slot.client.recipeFile = (⟨1, 1⟩, [a]) ∧
      ¬ InsideWritten sys.disk a :=
  ⟨_, _, _, rfl, rfl, rfl, rfl, rfl, by decide⟩

end Debe
