import Debe.Lib.Runs
import Debe.Storage

/-!
# The hand-off through a message queue

`Chunker`, `DataRetriever` and the enclave's container ocall push items into a
`MessageQueue` and set `done_` after the last one.  `DataSender::Run`,
`RestoreWriter::Run` and `DataWriter::Run` take them out in a loop of one form:

    if (done_ && IsEmpty()) jobDoneFlag = true;
    if (Pop(item)) process(item);
    if (jobDoneFlag) break;

The two sides run on threads of their own.  Each call on the queue and each
access of `done_` is one step.  The queue itself is third-party code: it is a
FIFO, `try_enqueue` may fail for want of room at any time, and `size_approx` is
exact once the last push is over, but may be off while pushes are under way.

What a consumer does with an item is a parameter, `process`, on a state of its
own, `sink`: the containers written, the bytes of the restored file, the messages
sent.
-/

namespace Debe

/-- Where the consumer's loop stands. -/
inductive ConsumerPc
  /-- Before the read of `done_`. -/
  | testDone
  /-- `done_` was set; before `IsEmpty`. -/
  | testEmpty
  | pop
  /-- Before the test of `jobDoneFlag`. -/
  | loopEnd
  | left
  deriving DecidableEq, Repr

/-- A queue with its producer and its consumer.  `processed` is a history that
neither of them reads. -/
structure Pipeline (α σ : Type*) where
  /-- What the producer has still to push. -/
  pending : List α
  done : Bool
  queue : List α
  pc : ConsumerPc
  jobDoneFlag : Bool
  sink : σ
  processed : List α
  deriving DecidableEq, Repr

inductive PipelineAction
  | push
  /-- `try_enqueue` fails; `Push` tries again. -/
  | pushFails
  | setDone
  | testDone
  /-- `IsEmpty` answers. -/
  | testEmpty (answer : Bool)
  | pop
  | loopEnd
  deriving DecidableEq, Repr

namespace Pipeline

variable {α σ : Type*} (process : σ → α → σ)

/-- Both threads at their start. -/
def start (items : List α) (sink : σ) : Pipeline α σ where
  pending := items
  done := false
  queue := []
  pc := .testDone
  jobDoneFlag := false
  sink := sink
  processed := []

/-- One step of either thread. -/
def step (s : Pipeline α σ) : PipelineAction → Option (Pipeline α σ)
  | .push =>
      match s.pending with
      | a :: rest => some { s with pending := rest, queue := s.queue ++ [a] }
      | [] => none
  | .pushFails => if s.pending.isEmpty then none else some s
  | .setDone =>
      if s.pending.isEmpty ∧ s.done = false then some { s with done := true } else none
  | .testDone =>
      if s.pc = .testDone then
        some { s with pc := if s.done then .testEmpty else .pop }
      else none
  | .testEmpty answer =>
      -- only after the last push is the answer known to be right
      if s.pc = .testEmpty ∧ (s.pending.isEmpty → answer = s.queue.isEmpty) then
        some { s with pc := .pop, jobDoneFlag := s.jobDoneFlag || answer }
      else none
  | .pop =>
      if s.pc = .pop then
        match s.queue with
        | a :: rest => some
            { s with
              pc := .loopEnd
              queue := rest
              sink := process s.sink a
              processed := s.processed ++ [a] }
        | [] => some { s with pc := .loopEnd }
      else none
  | .loopEnd =>
      if s.pc = .loopEnd then
        some { s with pc := if s.jobDoneFlag then .left else .testDone }
      else none

/-- What holds between any two steps.  The flag is set only when nothing can be
pushed any more and nothing is left in the queue, so the `Pop` between the test
and the `break` finds nothing. -/
structure Inv (items : List α) (sink : σ) (s : Pipeline α σ) : Prop where
  order : s.processed ++ s.queue ++ s.pending = items
  sink_eq : s.sink = s.processed.foldl process sink
  done_last : s.done = true → s.pending = []
  tested : s.pc = .testEmpty → s.done = true
  flag : s.jobDoneFlag = true → s.done = true ∧ s.queue = []
  flag_left : s.pc = .left → s.jobDoneFlag = true

variable {process} {items : List α} {sink : σ} {s t : Pipeline α σ}

theorem inv_start : Inv process items sink (start items sink) where
  order := rfl
  sink_eq := rfl
  done_last := nofun
  tested := nofun
  flag := nofun
  flag_left := nofun

theorem Inv.push {a : α} {rest : List α} (h : Inv process items sink s)
    (hpending : s.pending = a :: rest) :
    Inv process items sink { s with pending := rest, queue := s.queue ++ [a] } where
  order := by simpa [hpending] using h.order
  sink_eq := h.sink_eq
  done_last := by
    intro hdone
    have hnil := h.done_last hdone
    simp [hpending] at hnil
  tested := h.tested
  flag := by
    intro hflag
    have hnil := h.done_last (h.flag hflag).1
    simp [hpending] at hnil
  flag_left := h.flag_left

theorem Inv.pop {a : α} {rest : List α} (h : Inv process items sink s)
    (hqueue : s.queue = a :: rest) :
    Inv process items sink
      { s with
        pc := .loopEnd
        queue := rest
        sink := process s.sink a
        processed := s.processed ++ [a] } where
  order := by simpa [hqueue] using h.order
  sink_eq := by simp [h.sink_eq]
  done_last := h.done_last
  tested := nofun
  flag := by
    intro hflag
    have hnil := (h.flag hflag).2
    simp [hqueue] at hnil
  flag_left := nofun

/-- Every step keeps the invariant. -/
theorem Inv.step (h : Inv process items sink s) {a : PipelineAction}
    (hstep : Pipeline.step process s a = some t) : Inv process items sink t := by
  cases a with
  | push =>
      simp only [Pipeline.step] at hstep
      split at hstep
      · cases hstep
        exact h.push ‹_›
      · cases hstep
  | pushFails =>
      simp only [Pipeline.step] at hstep
      split at hstep
      · cases hstep
      · cases hstep
        exact h
  | setDone =>
      simp only [Pipeline.step] at hstep
      split at hstep
      · next hguard =>
          cases hstep
          have hnil : s.pending = [] := List.isEmpty_iff.mp hguard.1
          exact ⟨h.order, h.sink_eq, fun _ => hnil, fun _ => rfl,
            fun hflag => ⟨rfl, (h.flag hflag).2⟩, h.flag_left⟩
      · cases hstep
  | testDone =>
      simp only [Pipeline.step] at hstep
      split at hstep
      · cases hstep
        exact ⟨h.order, h.sink_eq, h.done_last, by grind, h.flag, by grind⟩
      · cases hstep
  | testEmpty answer =>
      simp only [Pipeline.step] at hstep
      split at hstep
      · next hguard =>
          cases hstep
          have hdone := h.tested hguard.1
          have hanswer := hguard.2 (by simp [h.done_last hdone])
          exact ⟨h.order, h.sink_eq, h.done_last, nofun,
            fun hflag => ⟨hdone, by grind [h.flag]⟩, nofun⟩
      · cases hstep
  | pop =>
      simp only [Pipeline.step] at hstep
      split at hstep
      · split at hstep
        · cases hstep
          exact h.pop ‹_›
        · cases hstep
          exact ⟨h.order, h.sink_eq, h.done_last, nofun, h.flag, nofun⟩
      · cases hstep
  | loopEnd =>
      simp only [Pipeline.step] at hstep
      split at hstep
      · cases hstep
        exact ⟨h.order, h.sink_eq, h.done_last, by grind, h.flag, by grind⟩
      · cases hstep

/-- Every state of every run. -/
theorem inv_of_reaches (hrun : Runs.Reaches (Pipeline.step process) (start items sink) s) :
    Inv process items sink s :=
  hrun.invariant (fun _ _ _ h hstep => h.step hstep) inv_start

/-- The state once the loop is left. -/
theorem Inv.of_left (h : Inv process items sink s) (hleft : s.pc = .left) :
    s.pending = [] ∧ s.queue = [] ∧ s.processed = items := by
  obtain ⟨hdone, hqueue⟩ := h.flag (h.flag_left hleft)
  have hpending := h.done_last hdone
  exact ⟨hpending, hqueue, by simpa [hqueue, hpending] using h.order⟩

theorem Inv.sink_of_left (h : Inv process items sink s) (hleft : s.pc = .left) :
    s.sink = items.foldl process sink := by
  rw [h.sink_eq, (h.of_left hleft).2.2]

/-- **Nothing is lost in the hand-off.**  Whatever the schedule, once the consumer
has left its loop the producer has pushed all its items, the queue is empty, and
the consumer has processed the items once each, in the order of the pushes. -/
theorem processed_of_left (process : σ → α → σ) (items : List α) (sink : σ)
    (s : Pipeline α σ) (hrun : Runs.Reaches (Pipeline.step process) (start items sink) s)
    (hleft : s.pc = .left) :
    s.pending = [] ∧ s.queue = [] ∧ s.processed = items ∧
      s.sink = items.foldl process sink := by
  have h := inv_of_reaches hrun
  obtain ⟨hpending, hqueue, hall⟩ := h.of_left hleft
  exact ⟨hpending, hqueue, hall, h.sink_of_left hleft⟩

/-- The producer finishes between the consumer's look at `done_` and its `Pop`, so
that the loop takes one more turn. -/
theorem processed_of_left_late_finish :
    ∃ s : Pipeline Nat (List Nat),
      Runs.Reaches (Pipeline.step fun l a => l ++ [a]) (start [7, 8] []) s ∧ s.pc = .left ∧
      s.processed = [7, 8] := by
  let schedule : List PipelineAction :=
    [.push, .testDone, .push, .setDone, .pop, .loopEnd, .testDone, .testEmpty false, .pop,
      .loopEnd, .testDone, .testEmpty true, .pop, .loopEnd]
  obtain ⟨s, hs⟩ : ∃ s, Runs.run (Pipeline.step fun l a => l ++ [a])
      (start [7, 8] ([] : List Nat)) schedule = some s := Option.isSome_iff_exists.mp (by decide)
  have hleft : s.pc = .left := by
    cases hs
    rfl
  exact ⟨s, Runs.reaches_of_run hs, hleft,
    (processed_of_left _ _ _ s (Runs.reaches_of_run hs) hleft).2.2.1⟩

/-! ## The loop can always be left -/

/-- One turn of the loop after the producer has finished takes one item out. -/
theorem reaches_turn {a : α} {rest : List α} (hdone : s.done = true) (hpc : s.pc = .testDone)
    (hflag : s.jobDoneFlag = false) (hpending : s.pending = []) (hqueue : s.queue = a :: rest) :
    Runs.Reaches (Pipeline.step process) s
      { s with
        queue := rest
        sink := process s.sink a
        processed := s.processed ++ [a] } := by
  apply @Runs.reaches_of_run _ _ _ _ _ [.testDone, .testEmpty false, .pop, .loopEnd]
  simp [Runs.run, Pipeline.step, hdone, hpc, hflag, hpending, hqueue]

/-- The last turn finds the queue empty and leaves. -/
theorem reaches_leave (hdone : s.done = true) (hpc : s.pc = .testDone)
    (hpending : s.pending = []) (hqueue : s.queue = []) :
    Runs.Reaches (Pipeline.step process) s { s with pc := .left, jobDoneFlag := true } := by
  apply @Runs.reaches_of_run _ _ _ _ _ [.testDone, .testEmpty true, .pop, .loopEnd]
  simp [Runs.run, Pipeline.step, hdone, hpc, hpending, hqueue]

/-- Turn after turn the queue is emptied. -/
theorem reaches_left_of_queue (hdone : s.done = true) (hpc : s.pc = .testDone)
    (hflag : s.jobDoneFlag = false) (hpending : s.pending = []) :
    ∃ t, Runs.Reaches (Pipeline.step process) s t ∧ t.pc = .left := by
  generalize hqueue : s.queue = queue
  induction queue generalizing s with
  | nil => exact ⟨_, reaches_leave hdone hpc hpending hqueue, rfl⟩
  | cons a rest ih =>
      have hturn := @reaches_turn _ _ process _ _ _ hdone hpc hflag hpending hqueue
      obtain ⟨t, ht, hleft⟩ := ih
        (s := { s with queue := rest, sink := process s.sink a, processed := s.processed ++ [a] })
        hdone hpc hflag hpending rfl
      exact ⟨t, hturn.trans ht, hleft⟩

/-- The producer pushes the rest of its items and sets `done_`. -/
theorem reaches_done (s : Pipeline α σ) : ∃ t, Runs.Reaches (Pipeline.step process) s t ∧
    t.pending = [] ∧ t.done = true := by
  generalize hpending : s.pending = pending
  induction pending generalizing s with
  | nil =>
      cases hdone : s.done with
      | true => exact ⟨s, .refl, hpending, hdone⟩
      | false =>
          refine ⟨{ s with done := true }, Runs.reaches_of_step (a := .setDone) ?_, hpending, rfl⟩
          simp [Pipeline.step, hpending, hdone]
  | cons a rest ih =>
      have hpush : Pipeline.step process s .push =
          some { s with pending := rest, queue := s.queue ++ [a] } := by
        simp [Pipeline.step, hpending]
      obtain ⟨t, ht, hrest⟩ := ih { s with pending := rest, queue := s.queue ++ [a] } rfl
      exact ⟨t, (Runs.reaches_of_step hpush).trans ht, hrest⟩

/-- The consumer can come round to the head of its loop, or leave, without help
from the producer. -/
def CanTurn (process : σ → α → σ) (s : Pipeline α σ) : Prop :=
  ∃ t, Runs.Reaches (Pipeline.step process) s t ∧ t.pending = s.pending ∧ t.done = s.done ∧
    (t.pc = .left ∨ t.pc = .testDone ∧ t.jobDoneFlag = false)

theorem CanTurn.of_step {a : PipelineAction} (hstep : Pipeline.step process s a = some t)
    (hpending : t.pending = s.pending) (hdone : t.done = s.done) (h : CanTurn process t) :
    CanTurn process s := by
  obtain ⟨u, hu, hpending', hdone', hend⟩ := h
  exact ⟨u, (Runs.reaches_of_step hstep).trans hu, hpending'.trans hpending,
    hdone'.trans hdone, hend⟩

theorem canTurn_loopEnd (hpc : s.pc = .loopEnd) : CanTurn process s := by
  have hstep : Pipeline.step process s .loopEnd =
      some { s with pc := if s.jobDoneFlag then .left else .testDone } := by
    simp [Pipeline.step, hpc]
  refine ⟨_, Runs.reaches_of_step hstep, rfl, rfl, ?_⟩
  cases hflag : s.jobDoneFlag with
  | true => exact .inl rfl
  | false => exact .inr ⟨rfl, rfl⟩

theorem canTurn_pop (hpc : s.pc = .pop) : CanTurn process s := by
  cases hqueue : s.queue with
  | nil =>
      have hstep : Pipeline.step process s .pop = some { s with pc := .loopEnd } := by
        simp [Pipeline.step, hpc, hqueue]
      exact .of_step hstep rfl rfl (canTurn_loopEnd rfl)
  | cons a rest =>
      have hstep : Pipeline.step process s .pop = some
          { s with
            pc := .loopEnd
            queue := rest
            sink := process s.sink a
            processed := s.processed ++ [a] } := by
        simp [Pipeline.step, hpc, hqueue]
      exact .of_step hstep rfl rfl (canTurn_loopEnd rfl)

theorem canTurn_testEmpty (hpc : s.pc = .testEmpty) : CanTurn process s := by
  have hstep : Pipeline.step process s (.testEmpty s.queue.isEmpty) =
      some { s with pc := .pop, jobDoneFlag := s.jobDoneFlag || s.queue.isEmpty } := by
    simp [Pipeline.step, hpc]
  exact .of_step hstep rfl rfl (canTurn_pop rfl)

theorem canTurn (s : Pipeline α σ) : CanTurn process s := by
  cases hpc : s.pc with
  | left => exact ⟨s, .refl, rfl, rfl, .inl hpc⟩
  | loopEnd => exact canTurn_loopEnd hpc
  | pop => exact canTurn_pop hpc
  | testEmpty => exact canTurn_testEmpty hpc
  | testDone =>
      have hstep : Pipeline.step process s .testDone =
          some { s with pc := if s.done then .testEmpty else .pop } := by
        simp [Pipeline.step, hpc]
      cases hdone : s.done with
      | true => exact .of_step hstep rfl rfl (canTurn_testEmpty (by simp [hdone]))
      | false => exact .of_step hstep rfl rfl (canTurn_pop (by simp [hdone]))

/-- **The consumer is never stuck.**  From every state some schedule takes it out
of its loop. -/
theorem reaches_left (s : Pipeline α σ) :
    ∃ t, Runs.Reaches (Pipeline.step process) s t ∧ t.pc = .left := by
  obtain ⟨s₁, hs₁, hpending₁, hdone₁⟩ := @reaches_done _ _ process s
  obtain ⟨s₂, hs₂, hpending₂, hdone₂, hend⟩ := @canTurn _ _ process s₁
  rcases hend with hleft | ⟨hpc, hflag⟩
  · exact ⟨s₂, hs₁.trans hs₂, hleft⟩
  · obtain ⟨t, ht, hleft⟩ := @reaches_left_of_queue _ _ process _ (hdone₂.trans hdone₁) hpc
      hflag (hpending₂.trans hpending₁)
    exact ⟨t, (hs₁.trans hs₂).trans ht, hleft⟩

/-! ## Two of the consumers -/

/-- `SaveToFile` of `DataWriter`: the containers on disk, in the order written. -/
def saveToFile (written : List Container) (newContainer : Container) : List Container :=
  written ++ [newContainer]

/-- The output file of `RestoreWriter` and its two counters. -/
structure RestoreOutput where
  file : Bytes
  totalRecvNum : Nat
  totalWrittenSize : Nat
  deriving DecidableEq, Repr

/-- `RestoreWriter` writes the chunk's bytes at the end of the file. -/
def restoreWrite (out : RestoreOutput) (newData : Bytes) : RestoreOutput where
  file := out.file ++ newData
  totalRecvNum := out.totalRecvNum + 1
  totalWrittenSize := out.totalWrittenSize + newData.length

theorem foldl_saveToFile (written pushed : List Container) :
    pushed.foldl saveToFile written = written ++ pushed := by
  induction pushed generalizing written with
  | nil => simp
  | cons c rest ih => simp [ih, saveToFile]

theorem foldl_restoreWrite (out : RestoreOutput) (chunks : List Bytes) :
    chunks.foldl restoreWrite out =
      ⟨out.file ++ chunks.flatten, out.totalRecvNum + chunks.length,
        out.totalWrittenSize + chunks.flatten.length⟩ := by
  induction chunks generalizing out with
  | nil => simp
  | cons c rest ih =>
      simp only [List.foldl_cons, ih, restoreWrite, List.flatten_cons, List.append_assoc,
        List.length_cons, List.length_append, RestoreOutput.mk.injEq, true_and]
      omega

/-- When `DataWriter::Run` returns, every container of the upload is on disk. -/
theorem dataWriter_written {pushed written : List Container}
    {s : Pipeline Container (List Container)}
    (hrun : Runs.Reaches (Pipeline.step saveToFile) (start pushed written) s)
    (hleft : s.pc = .left) : s.sink = written ++ pushed := by
  rw [(inv_of_reaches hrun).sink_of_left hleft, foldl_saveToFile]

/-- When `RestoreWriter::Run` closes its file, the file is the restored chunks one
after the other. -/
theorem restoreWriter_file {chunks : List Bytes} {s : Pipeline Bytes RestoreOutput}
    (hrun : Runs.Reaches (Pipeline.step restoreWrite) (start chunks ⟨[], 0, 0⟩) s)
    (hleft : s.pc = .left) :
    s.sink = ⟨chunks.flatten, chunks.length, chunks.flatten.length⟩ := by
  rw [(inv_of_reaches hrun).sink_of_left hleft, foldl_restoreWrite]
  simp

end Pipeline

end Debe
