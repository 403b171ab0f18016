import Debe.Pipeline
import Debe.QueueRuns

/-!
# The hand-off on the real queue

`MessageQueue::Push` calls `try_enqueue` until it succeeds, `Pop` is `try_dequeue`, and
`IsEmpty` asks whether `size_approx` is zero.  Here the producer and the consumer of
`Debe.Pipeline` run on these, access by access, and the hand-off with a queue that is taken for
granted turns out to be what they implement: a turn of the consumer's loop takes effect at the
one access that moves `front`, a push at the one that moves `tail` or `tailBlock`, and the last
turn when `size_approx` returns zero.
-/

namespace Debe

/-- Where the consumer's loop stands. -/
inductive LoopPc
  /-- Before the read of `done_`. -/
  | testDone
  /-- Before the call of `IsEmpty`. -/
  | testEmpty
  /-- In `IsEmpty`. -/
  | counting
  /-- Before the call of `Pop`. -/
  | pop
  /-- In `Pop`. -/
  | popping
  /-- Before the test of `jobDoneFlag`. -/
  | loopEnd
  | left
  deriving DecidableEq, Repr

/-- A `MessageQueue` with its producer and its consumer. -/
structure MessageQueue (α σ : Type*) where
  handoff : Handoff α
  /-- What the producer has still to push, from the element it is pushing on. -/
  pending : List α
  done : Bool
  pc : LoopPc
  jobDoneFlag : Bool
  sink : σ

inductive MessageQueueAction
  /-- `Push` calls `try_enqueue`, again if it has failed. -/
  | push
  /-- The next access of that call. -/
  | enqueue
  | setDone
  | testDone
  /-- `IsEmpty` calls `size_approx`. -/
  | isEmpty
  | count
  /-- `Pop` calls `try_dequeue`. -/
  | pop
  | dequeue
  | loopEnd
  deriving DecidableEq, Repr

namespace MessageQueue

variable {α σ : Type*} (process : σ → α → σ)

/-- Both threads at their start, with a new queue. -/
def start (size : UInt32) (items : List α) (sink : σ) : MessageQueue α σ where
  handoff := .start size.toNat
  pending := items
  done := false
  pc := .testDone
  jobDoneFlag := false
  sink := sink

/-- What is left to push once `try_enqueue` stands at `pc`. -/
def pendingAfter (pending : List α) : EnqueuePc α → List α
  | .returned _ true => pending.tail
  | _ => pending

/-- What the consumer makes of the return of `Pop`. -/
def afterPop (s : MessageQueue α σ) (h : Handoff α) : MessageQueue α σ :=
  match h.dequeuer with
  | .dequeued (some x) => { s with handoff := h, pc := .loopEnd, sink := process s.sink x }
  | .dequeued none => { s with handoff := h, pc := .loopEnd }
  | _ => { s with handoff := h }

/-- What the consumer makes of the return of `IsEmpty`. -/
def afterCount (s : MessageQueue α σ) (h : Handoff α) : MessageQueue α σ :=
  match h.dequeuer with
  | .counted n => { s with handoff := h, pc := .pop, jobDoneFlag := s.jobDoneFlag || n == 0 }
  | _ => { s with handoff := h }

/-- One step of either thread. -/
def step (s : MessageQueue α σ) : MessageQueueAction → Option (MessageQueue α σ)
  | .push =>
      match s.pending with
      | x :: _ => (s.handoff.step (.tryEnqueue x)).map fun h => { s with handoff := h }
      | [] => none
  | .enqueue => (s.handoff.step .enqueue).map fun h =>
      { s with handoff := h, pending := pendingAfter s.pending h.enqueuer }
  | .setDone =>
      if s.pending.isEmpty ∧ s.handoff.enqueuer.idle ∧ s.done = false then
        some { s with done := true }
      else none
  | .testDone =>
      if s.pc = .testDone then some { s with pc := if s.done then .testEmpty else .pop } else none
  | .isEmpty =>
      if s.pc = .testEmpty then
        (s.handoff.step .sizeApprox).map fun h => { s with handoff := h, pc := .counting }
      else none
  | .count =>
      if s.pc = .counting then (s.handoff.step .count).map s.afterCount else none
  | .pop =>
      if s.pc = .pop then
        (s.handoff.step .tryDequeue).map fun h => { s with handoff := h, pc := .popping }
      else none
  | .dequeue =>
      if s.pc = .popping then (s.handoff.step .dequeue).map (s.afterPop process) else none
  | .loopEnd =>
      if s.pc = .loopEnd then
        some { s with pc := if s.jobDoneFlag then .left else .testDone }
      else none

/-- The hand-off that a state stands for.  Until the flag is set the consumer counts as at the
head of its loop: what it has read so far binds it to nothing. -/
def toPipeline (s : MessageQueue α σ) : Pipeline α σ where
  pending := s.pending
  done := s.done
  queue := s.handoff.accepted.drop s.handoff.received.length
  pc := if s.pc = .left then .left else if s.jobDoneFlag then .loopEnd else .testDone
  jobDoneFlag := s.jobDoneFlag
  sink := s.sink
  processed := s.handoff.received

/-- The element that a call of `try_enqueue` is to add. -/
def element : EnqueuePc α → Option α
  | .loadTailBlock x | .loadTail x _ | .loadFront x _ _ _ | .construct x _ _ _
  | .storeTail x _ _ | .loadNext x _ | .loadFrontBlock x _ _ | .loadTailBlockNext x _
  | .loadNextFront x _ | .loadNextTail x _ _ | .constructNext x _ _ | .storeNextTail x _ _
  | .storeTailBlock x _ => some x
  | .ready | .returned _ _ | .broken => none

/-- What holds between any two steps. -/
structure Inv (size : UInt32) (s : MessageQueue α σ) : Prop where
  run : Handoff.Run size s.handoff
  pushing : ∀ x, element s.handoff.enqueuer = some x → s.pending.head? = some x
  done_last : s.done = true → s.pending = []
  tested : s.pc = .testEmpty ∨ s.pc = .counting → s.done = true
  counts : s.pc = .counting → ∃ k blocks link path rest stored queued,
    Layout size.toNat blocks k ∧
    Handoff.Inv k blocks link s.handoff path rest stored queued ∧
    Handoff.Counts s.handoff.queue (path ++ rest) stored s.handoff.dequeuer
  flag : s.jobDoneFlag = true → s.done = true ∧ s.handoff.received = s.handoff.accepted
  flag_left : s.pc = .left → s.jobDoneFlag = true

variable {process} {size : UInt32} {items : List α} {sink : σ} {s t : MessageQueue α σ}

/-- A call of `try_enqueue` keeps its element until it returns. -/
theorem innerEnqueue_element {q q' : ReaderWriterQueue α} {pc pc' : EnqueuePc α}
    (h : q.innerEnqueue pc = some (q', pc')) :
    element pc' = element pc ∧ pc'.accepted = [] ∧ (∀ l, pendingAfter l pc' = l) ∨
      (∃ x b, pc' = .returned x b ∧ element pc = some x) ∨ pc' = .broken := by
  cases pc <;> simp only [ReaderWriterQueue.innerEnqueue] at h <;> try split at h
  all_goals first
    | cases h
      first
        | exact .inl ⟨rfl, rfl, fun _ => rfl⟩
        | exact .inr (.inl ⟨_, _, rfl, rfl⟩)
        | exact .inr (.inr rfl)
    | grind [element, EnqueuePc.accepted, pendingAfter]

theorem innerEnqueue_idle (q : ReaderWriterQueue α) {pc : EnqueuePc α} (h : pc.idle = true) :
    q.innerEnqueue pc = none := by
  cases pc <;> first | rfl | cases h

theorem inv_start : Inv size (start size items sink : MessageQueue α σ) where
  run := .refl
  pushing := fun x h => by cases h
  done_last := fun h => by cases h
  tested := fun h => by cases h <;> contradiction
  counts := fun h => by cases h
  flag := fun h => by cases h
  flag_left := fun h => by cases h

/-- A step of the queue is a step of a run of the queue. -/
theorem Inv.run_step (h : Inv size s) {a : HandoffAction α} {u : Handoff α}
    (hstep : s.handoff.step a = some u) : Handoff.Run size u :=
  h.run.trans (Runs.reaches_of_step hstep)

/-- After the last push the producer is between calls. -/
theorem Inv.idle_of_done (h : Inv size s) (hdone : s.done = true) :
    s.handoff.enqueuer.idle = true := by
  have hpending := h.done_last hdone
  have hpushing := h.pushing
  have hbroken := (Handoff.not_broken_of_run h.run).1
  rw [hpending] at hpushing
  cases hpc : s.handoff.enqueuer with
  | ready => rfl
  | returned x b => rfl
  | broken => exact absurd hpc hbroken
  | _ =>
      rw [hpc] at hpushing
      exact absurd (hpushing _ rfl) (by simp)

theorem Inv.push (h : Inv size s) {x : α} {rest : List α} (hpending : s.pending = x :: rest)
    {u : Handoff α} (hstep : s.handoff.step (.tryEnqueue x) = some u) :
    Inv size { s with handoff := u } := by
  have hrun := h.run_step hstep
  have hdone : s.done = true → False := by
    intro hdone
    have hnil := h.done_last hdone
    rw [hpending] at hnil
    cases hnil
  simp only [Handoff.step] at hstep
  split at hstep
  · cases hstep
    refine ⟨hrun, ?_, h.done_last, h.tested, ?_, h.flag, h.flag_left⟩
    · intro y hy
      cases hy
      rw [hpending]
      rfl
    · intro hcounting
      exact (hdone (h.tested (.inr hcounting))).elim
  · cases hstep

theorem Inv.enqueue (h : Inv size s) {u : Handoff α}
    (hstep : s.handoff.step .enqueue = some u) :
    Inv size { s with handoff := u, pending := pendingAfter s.pending u.enqueuer } := by
  have hrun := h.run_step hstep
  have hpushing := h.pushing
  -- the step has an element in hand, so the last push is not over
  have hdone : s.done = true → False := by
    intro hdone
    have hidle := h.idle_of_done hdone
    obtain ⟨r, hr, _⟩ := Option.map_eq_some_iff.mp hstep
    rw [innerEnqueue_idle _ hidle] at hr
    cases hr
  obtain ⟨⟨q', pc'⟩, hr, rfl⟩ := Option.map_eq_some_iff.mp hstep
  refine ⟨hrun, ?_, fun hd => (hdone hd).elim, h.tested, ?_, fun hf => (hdone (h.flag hf).1).elim,
    h.flag_left⟩
  · intro x hx
    rcases innerEnqueue_element hr with ⟨helement, _, hpending⟩ | ⟨y, b, hpc', _⟩ | hpc'
    · change element pc' = some x at hx
      change (pendingAfter s.pending pc').head? = some x
      rw [hpending]
      exact hpushing x (helement ▸ hx)
    · change element pc' = some x at hx
      rw [hpc'] at hx
      cases hx
    · change element pc' = some x at hx
      rw [hpc'] at hx
      cases hx
  · intro hcounting
    exact (hdone (h.tested (.inr hcounting))).elim

/-- The consumer's calls leave the producer where it is. -/
theorem step_dequeue_eq {a u : Handoff α} (hstep : a.step .dequeue = some u) :
    u.enqueuer = a.enqueuer ∧ u.accepted = a.accepted ∧
      u.received = a.received ++ u.dequeuer.received := by
  obtain ⟨r, _, rfl⟩ := Option.map_eq_some_iff.mp hstep
  exact ⟨rfl, rfl, rfl⟩

theorem step_tryDequeue_eq {a u : Handoff α} (hstep : a.step .tryDequeue = some u) :
    u.enqueuer = a.enqueuer ∧ u.accepted = a.accepted ∧ u.received = a.received := by
  simp only [Handoff.step] at hstep
  split at hstep <;> cases hstep
  exact ⟨rfl, rfl, rfl⟩

theorem step_count_eq {a u : Handoff α} (hstep : a.step .count = some u) :
    u.enqueuer = a.enqueuer ∧ u.accepted = a.accepted ∧ u.received = a.received := by
  obtain ⟨pc, _, rfl⟩ := Option.map_eq_some_iff.mp hstep
  exact ⟨rfl, rfl, rfl⟩

/-- When everything accepted has been received, `Pop` returns nothing. -/
theorem received_nil {u : Handoff α} (hrun : Handoff.Run size u) {a : Handoff α}
    (hall : a.received = a.accepted) (hstep : a.step .dequeue = some u) :
    u.dequeuer.received = [] := by
  obtain ⟨_, haccepted, hreceived⟩ := step_dequeue_eq hstep
  obtain ⟨k, blocks, link, _, path, rest, stored, queued, hinv⟩ := Handoff.sound_of_run hrun
  have hhistory := hinv.history
  rw [haccepted, hreceived, hall, List.append_assoc, List.self_eq_append_right] at hhistory
  exact (List.append_eq_nil_iff.mp hhistory).1

theorem Inv.dequeue (h : Inv size s) (hpc : s.pc = .popping) {u : Handoff α}
    (hstep : s.handoff.step .dequeue = some u) : Inv size (s.afterPop process u) := by
  have hrun := h.run_step hstep
  obtain ⟨henqueuer, haccepted, hreceived⟩ := step_dequeue_eq hstep
  have hflag : s.jobDoneFlag = true → s.done = true ∧ u.received = u.accepted := by
    intro hf
    obtain ⟨hdone, hall⟩ := h.flag hf
    rw [hreceived, received_nil hrun hall hstep, List.append_nil, hall, haccepted]
    exact ⟨hdone, rfl⟩
  unfold afterPop
  split
  · exact ⟨hrun, henqueuer ▸ h.pushing, h.done_last, by simp, by simp, hflag, by simp⟩
  · exact ⟨hrun, henqueuer ▸ h.pushing, h.done_last, by simp, by simp, hflag, by simp⟩
  · exact ⟨hrun, henqueuer ▸ h.pushing, h.done_last, by simp [hpc], by simp [hpc], hflag,
      by simp [hpc]⟩

/-- When `size_approx` returns, it returns how many elements there are. -/
theorem Inv.counted (h : Inv size s) (hpc : s.pc = .counting) {u : Handoff α}
    (hstep : s.handoff.step .count = some u) {n : Nat} (hret : u.dequeuer = .counted n) :
    n = s.handoff.accepted.length - s.handoff.received.length := by
  obtain ⟨k, blocks, link, path, rest, stored, queued, hlayout, hinv, hcounts⟩ := h.counts hpc
  obtain ⟨pc, hr, rfl⟩ := Option.map_eq_some_iff.mp hstep
  have hcounts' := hcounts.step hinv hlayout hr
  have hpc' : pc = .counted n := hret
  rw [hpc'] at hcounts'
  rw [← hinv.total_eq_occupancy (h.idle_of_done (h.tested (.inr hpc)))]
  exact hcounts'

/-- Zero elements left means that all have been received. -/
theorem Inv.received_eq (h : Inv size s)
    (hzero : s.handoff.accepted.length - s.handoff.received.length = 0) :
    s.handoff.received = s.handoff.accepted := by
  obtain ⟨k, blocks, link, _, path, rest, stored, queued, hinv⟩ := Handoff.sound_of_run h.run
  have hhistory := hinv.history
  rw [hhistory, List.length_append, Nat.add_sub_cancel_left] at hzero
  rw [hhistory, List.length_eq_zero_iff.mp hzero, List.append_nil]

theorem Inv.count (h : Inv size s) (hpc : s.pc = .counting) {u : Handoff α}
    (hstep : s.handoff.step .count = some u) : Inv size (s.afterCount u) := by
  have hrun := h.run_step hstep
  obtain ⟨henqueuer, haccepted, hreceived⟩ := step_count_eq hstep
  have hdone := h.tested (.inr hpc)
  unfold afterCount
  split
  · next n hret =>
      have hn := h.counted hpc hstep hret
      refine ⟨hrun, henqueuer ▸ h.pushing, h.done_last, by simp, by simp, ?_, by simp⟩
      intro hf
      refine ⟨hdone, ?_⟩
      change u.received = u.accepted
      rw [hreceived, haccepted]
      rcases Bool.or_eq_true _ _ ▸ hf with hold | hzero
      · exact (h.flag hold).2
      · exact h.received_eq (hn ▸ beq_iff_eq.mp hzero)
  · refine ⟨hrun, henqueuer ▸ h.pushing, h.done_last, h.tested, ?_, ?_, h.flag_left⟩
    · intro _
      obtain ⟨k, blocks, link, path, rest, stored, queued, hlayout, hinv, hcounts⟩ := h.counts hpc
      obtain ⟨pc, hr, rfl⟩ := Option.map_eq_some_iff.mp hstep
      exact ⟨k, blocks, link, path, rest, stored, queued, hlayout, hinv.count hr,
        hcounts.step hinv hlayout hr⟩
    · intro hf
      change s.done = true ∧ u.received = u.accepted
      rw [hreceived, haccepted]
      exact h.flag hf

/-- Every step keeps the invariant. -/
theorem Inv.step (h : Inv size s) {a : MessageQueueAction} (hstep : s.step process a = some t) :
    Inv size t := by
  cases a with
  | push =>
      simp only [MessageQueue.step] at hstep
      split at hstep
      · next x rest hpending =>
          obtain ⟨u, hu, rfl⟩ := Option.map_eq_some_iff.mp hstep
          exact h.push hpending hu
      · cases hstep
  | enqueue =>
      obtain ⟨u, hu, rfl⟩ := Option.map_eq_some_iff.mp hstep
      exact h.enqueue hu
  | setDone =>
      simp only [MessageQueue.step] at hstep
      split at hstep
      · next hguard =>
          cases hstep
          exact ⟨h.run, h.pushing, fun _ => List.isEmpty_iff.mp hguard.1, fun _ => rfl, h.counts,
            fun hf => ⟨rfl, (h.flag hf).2⟩, h.flag_left⟩
      · cases hstep
  | testDone =>
      simp only [MessageQueue.step] at hstep
      split at hstep
      · cases hstep
        exact ⟨h.run, h.pushing, h.done_last, by grind, by grind, h.flag, by grind⟩
      · cases hstep
  | isEmpty =>
      simp only [MessageQueue.step] at hstep
      split at hstep
      · next hpc =>
          obtain ⟨u, hu, rfl⟩ := Option.map_eq_some_iff.mp hstep
          have hdone := h.tested (.inl hpc)
          have hrun := h.run_step hu
          obtain ⟨k, blocks, link, hlayout, path, rest, stored, queued, hinv⟩ :=
            Handoff.sound_of_run hrun
          simp only [Handoff.step] at hu
          split at hu
          · cases hu
            exact ⟨hrun, h.pushing, h.done_last, fun _ => hdone,
              fun _ => ⟨k, blocks, link, path, rest, stored, queued, hlayout, hinv, trivial⟩,
              h.flag, by simp⟩
          · cases hu
      · cases hstep
  | count =>
      simp only [MessageQueue.step] at hstep
      split at hstep
      · next hpc =>
          obtain ⟨u, hu, rfl⟩ := Option.map_eq_some_iff.mp hstep
          exact h.count hpc hu
      · cases hstep
  | pop =>
      simp only [MessageQueue.step] at hstep
      split at hstep
      · obtain ⟨u, hu, rfl⟩ := Option.map_eq_some_iff.mp hstep
        obtain ⟨henqueuer, haccepted, hreceived⟩ := step_tryDequeue_eq hu
        refine ⟨h.run_step hu, henqueuer ▸ h.pushing, h.done_last, by simp, by simp, ?_, by simp⟩
        intro hf
        change s.done = true ∧ u.received = u.accepted
        rw [hreceived, haccepted]
        exact h.flag hf
      · cases hstep
  | dequeue =>
      simp only [MessageQueue.step] at hstep
      split at hstep
      · next hpc =>
          obtain ⟨u, hu, rfl⟩ := Option.map_eq_some_iff.mp hstep
          exact h.dequeue hpc hu
      · cases hstep
  | loopEnd =>
      simp only [MessageQueue.step] at hstep
      split at hstep
      · cases hstep
        exact ⟨h.run, h.pushing, h.done_last, by grind, by grind, h.flag, by grind⟩
      · cases hstep

/-! ## The hand-off it implements -/

theorem Inv.drop_append (h : Inv size s) (l : List α) :
    (s.handoff.accepted ++ l).drop s.handoff.received.length =
      s.handoff.accepted.drop s.handoff.received.length ++ l := by
  obtain ⟨k, blocks, link, _, path, rest, stored, queued, hinv⟩ := Handoff.sound_of_run h.run
  rw [List.drop_append_of_le_length]
  rw [hinv.history, List.length_append]
  exact Nat.le_add_right _ _

theorem toPipeline_enqueue (h : Inv size s) {u : Handoff α}
    (hstep : s.handoff.step .enqueue = some u) :
    Runs.Reaches (Pipeline.step process) s.toPipeline
      { s with handoff := u, pending := pendingAfter s.pending u.enqueuer }.toPipeline := by
  have hbroken := (Handoff.not_broken_of_run (h.run_step hstep)).1
  have hpushing := h.pushing
  obtain ⟨⟨q', pc'⟩, hr, rfl⟩ := Option.map_eq_some_iff.mp hstep
  rcases innerEnqueue_element hr with ⟨_, haccepted, hpending⟩ | ⟨x, b, hpc', helement⟩ | hpc'
  · have hsame : { s with
        handoff := { s.handoff with
          queue := q', enqueuer := pc', accepted := s.handoff.accepted ++ pc'.accepted }
        pending := pendingAfter s.pending pc' }.toPipeline = s.toPipeline := by
      simp [toPipeline, haccepted, hpending]
    rw [hsame]
  · subst hpc'
    cases b with
    | false =>
        simp only [toPipeline, EnqueuePc.accepted, pendingAfter, List.append_nil]
        exact .refl
    | true =>
        obtain ⟨rest, hrest⟩ := List.head?_eq_some_iff.mp (hpushing x helement)
        refine Runs.reaches_of_step (a := .push) ?_
        simp [toPipeline, Pipeline.step, hrest, EnqueuePc.accepted, pendingAfter,
          h.drop_append]
  · exact absurd hpc' hbroken

/-- What `Pop` returns is at the head of the queue. -/
theorem Inv.queue_eq (h : Inv size s) {u : Handoff α} (hstep : s.handoff.step .dequeue = some u)
    {x : α} (hret : u.dequeuer = .dequeued (some x)) :
    s.handoff.accepted.drop s.handoff.received.length =
      x :: u.accepted.drop u.received.length := by
  obtain ⟨_, haccepted, hreceived⟩ := step_dequeue_eq hstep
  obtain ⟨k, blocks, link, _, path, rest, stored, queued, hinv⟩ :=
    Handoff.sound_of_run (h.run_step hstep)
  have hhistory := hinv.history
  rw [hret] at hreceived
  rw [← haccepted, hhistory, hreceived]
  simp [DequeuePc.received]

/-- The turn of the loop in which `Pop` returns something. -/
theorem toPipeline_popped (h : Inv size s) (hpc : s.pc = .popping) {u : Handoff α}
    (hstep : s.handoff.step .dequeue = some u) {x : α} (hret : u.dequeuer = .dequeued (some x)) :
    Runs.Reaches (Pipeline.step process) s.toPipeline
      { s with handoff := u, pc := .loopEnd, sink := process s.sink x }.toPipeline := by
  have hqueue := h.queue_eq hstep hret
  obtain ⟨_, haccepted, hreceived⟩ := step_dequeue_eq hstep
  have hflag : s.jobDoneFlag = false := by
    cases hf : s.jobDoneFlag with
    | false => rfl
    | true =>
        have hnil := received_nil (h.run_step hstep) (h.flag hf).2 hstep
        rw [hret] at hnil
        cases hnil
  have hprocessed : u.received = s.handoff.received ++ [x] := by
    rw [hreceived, hret]
    rfl
  cases hdone : s.done with
  | true =>
      refine @Runs.reaches_of_run _ _ _ _ _ [.testDone, .testEmpty false, .pop, .loopEnd] ?_
      simp [toPipeline, Runs.run, Pipeline.step, hpc, hflag, hdone, hqueue, hprocessed]
  | false =>
      refine @Runs.reaches_of_run _ _ _ _ _ [.testDone, .pop, .loopEnd] ?_
      simp [toPipeline, Runs.run, Pipeline.step, hpc, hflag, hdone, hqueue, hprocessed]

theorem toPipeline_dequeue (h : Inv size s) (hpc : s.pc = .popping) {u : Handoff α}
    (hstep : s.handoff.step .dequeue = some u) :
    Runs.Reaches (Pipeline.step process) s.toPipeline (s.afterPop process u).toPipeline := by
  obtain ⟨_, haccepted, hreceived⟩ := step_dequeue_eq hstep
  unfold afterPop
  split
  · next x hret => exact toPipeline_popped h hpc hstep hret
  · next hret =>
      have hsame : { s with handoff := u, pc := LoopPc.loopEnd }.toPipeline = s.toPipeline := by
        simp [toPipeline, hpc, haccepted, hreceived, hret, DequeuePc.received]
      rw [hsame]
  · next hsome hnone =>
      have hnil : u.dequeuer.received = [] := by
        cases hd : u.dequeuer with
        | dequeued r =>
            cases r with
            | none => rfl
            | some x => exact absurd hd (hsome x)
        | _ => rfl
      have hsame : { s with handoff := u }.toPipeline = s.toPipeline := by
        simp [toPipeline, haccepted, hreceived, hnil]
      rw [hsame]

/-- The last turn of the loop takes effect when `size_approx` returns zero. -/
theorem toPipeline_count (h : Inv size s) (hpc : s.pc = .counting) {u : Handoff α}
    (hstep : s.handoff.step .count = some u) :
    Runs.Reaches (Pipeline.step process) s.toPipeline (s.afterCount u).toPipeline := by
  obtain ⟨_, haccepted, hreceived⟩ := step_count_eq hstep
  have hdone := h.tested (.inr hpc)
  have hpending := h.done_last hdone
  unfold afterCount
  split
  · next n hret =>
      have hn := h.counted hpc hstep hret
      by_cases hturn : n = 0 ∧ s.jobDoneFlag = false
      · obtain ⟨hzero, hflag⟩ := hturn
        have hall := h.received_eq (hn ▸ hzero)
        refine @Runs.reaches_of_run _ _ _ _ _ [.testDone, .testEmpty true, .pop] ?_
        simp [toPipeline, Runs.run, Pipeline.step, hpc, hflag, hdone, hpending, hzero,
          haccepted, hreceived, hall]
      · have hflag : (s.jobDoneFlag || n == 0) = s.jobDoneFlag := by
          cases hf : s.jobDoneFlag with
          | true => rfl
          | false => simpa [hf] using hturn
        have hsame : { s with
            handoff := u, pc := LoopPc.pop, jobDoneFlag := s.jobDoneFlag || n == 0 }.toPipeline =
              s.toPipeline := by
          simp [toPipeline, hpc, haccepted, hreceived, hflag]
        rw [hsame]
  · have hsame : { s with handoff := u }.toPipeline = s.toPipeline := by
      simp [toPipeline, haccepted, hreceived]
    rw [hsame]

/-- Every step is one of the hand-off, or several, or none. -/
theorem toPipeline_step (h : Inv size s) {a : MessageQueueAction}
    (hstep : s.step process a = some t) :
    Runs.Reaches (Pipeline.step process) s.toPipeline t.toPipeline := by
  cases a with
  | push =>
      simp only [MessageQueue.step] at hstep
      split at hstep
      · obtain ⟨u, hu, rfl⟩ := Option.map_eq_some_iff.mp hstep
        simp only [Handoff.step] at hu
        split at hu <;> cases hu
        exact .refl
      · cases hstep
  | enqueue =>
      obtain ⟨u, hu, rfl⟩ := Option.map_eq_some_iff.mp hstep
      exact toPipeline_enqueue h hu
  | setDone =>
      simp only [MessageQueue.step] at hstep
      split at hstep
      · next hguard =>
          cases hstep
          refine Runs.reaches_of_step (a := .setDone) ?_
          simp [toPipeline, Pipeline.step, hguard.1, hguard.2.2]
      · cases hstep
  | testDone =>
      simp only [MessageQueue.step] at hstep
      split at hstep
      · next hpc =>
          cases hstep
          have hsame : { s with pc := if s.done then LoopPc.testEmpty else .pop }.toPipeline =
              s.toPipeline := by
            cases hdone : s.done <;> simp [toPipeline, hpc, hdone]
          rw [hsame]
      · cases hstep
  | isEmpty =>
      simp only [MessageQueue.step] at hstep
      split at hstep
      · next hpc =>
          obtain ⟨u, hu, rfl⟩ := Option.map_eq_some_iff.mp hstep
          simp only [Handoff.step] at hu
          split at hu <;> cases hu
          have hsame : { s with
              handoff := { s.handoff with dequeuer := .countFrontBlock }
              pc := LoopPc.counting }.toPipeline = s.toPipeline := by
            simp [toPipeline, hpc]
          rw [hsame]
      · cases hstep
  | count =>
      simp only [MessageQueue.step] at hstep
      split at hstep
      · next hpc =>
          obtain ⟨u, hu, rfl⟩ := Option.map_eq_some_iff.mp hstep
          exact toPipeline_count h hpc hu
      · cases hstep
  | pop =>
      simp only [MessageQueue.step] at hstep
      split at hstep
      · next hpc =>
          obtain ⟨u, hu, rfl⟩ := Option.map_eq_some_iff.mp hstep
          obtain ⟨_, haccepted, hreceived⟩ := step_tryDequeue_eq hu
          have hsame : { s with handoff := u, pc := LoopPc.popping }.toPipeline =
              s.toPipeline := by
            simp [toPipeline, hpc, haccepted, hreceived]
          rw [hsame]
      · cases hstep
  | dequeue =>
      simp only [MessageQueue.step] at hstep
      split at hstep
      · next hpc =>
          obtain ⟨u, hu, rfl⟩ := Option.map_eq_some_iff.mp hstep
          exact toPipeline_dequeue h hpc hu
      · cases hstep
  | loopEnd =>
      simp only [MessageQueue.step] at hstep
      split at hstep
      · next hpc =>
          cases hstep
          cases hflag : s.jobDoneFlag with
          | true =>
              refine Runs.reaches_of_step (a := .loopEnd) ?_
              simp [toPipeline, Pipeline.step, hpc, hflag]
          | false =>
              have hsame : { s with pc := LoopPc.testDone }.toPipeline = s.toPipeline := by
                simp [toPipeline, hpc]
              simp only [Bool.false_eq_true, if_false]
              rw [← hflag, hsame]
      · cases hstep

/-- Every state of every run, and the hand-off it stands for. -/
theorem refines_of_run (hrun : Runs.Reaches (MessageQueue.step process) (start size items sink) s) :
    Inv size s ∧
      Runs.Reaches (Pipeline.step process) (Pipeline.start items sink) s.toPipeline := by
  induction hrun with
  | refl => exact ⟨inv_start, .refl⟩
  | tail _ hnext ih =>
      obtain ⟨a, hstep⟩ := hnext
      exact ⟨ih.1.step hstep, ih.2.trans (toPipeline_step ih.1 hstep)⟩

/-- **The real queue implements the hand-off.**  Over every interleaving of the accesses of
`Push` with those of the consumer's loop, a state stands for a state of the hand-off with a
queue taken for granted.  Once the loop is left, everything was pushed, and processed once
each in the order of the pushes, and nothing is left in the queue. -/
theorem messageQueue_handsOff (process : σ → α → σ) (size : UInt32) (items : List α) (sink : σ)
    (s : MessageQueue α σ)
    (hrun : Runs.Reaches (MessageQueue.step process) (start size items sink) s) :
    Runs.Reaches (Pipeline.step process) (Pipeline.start items sink) s.toPipeline ∧
      (s.pc = .left → s.handoff.accepted = items ∧ s.handoff.received = items ∧
        s.sink = items.foldl process sink) := by
  obtain ⟨hinv, hreach⟩ := refines_of_run hrun
  refine ⟨hreach, ?_⟩
  intro hleft
  have hpipeline := Pipeline.inv_of_reaches hreach
  have hpc : s.toPipeline.pc = .left := by simp [toPipeline, hleft]
  obtain ⟨_, _, hprocessed⟩ := hpipeline.of_left hpc
  have hreceived : s.handoff.received = items := hprocessed
  exact ⟨(hinv.flag (hinv.flag_left hleft)).2.symm.trans hreceived, hreceived,
    hpipeline.sink_of_left hpc⟩

/-- The producer is done before the consumer has looked twice. -/
theorem messageQueue_handsOff_two : ∃ s : MessageQueue Nat (List Nat),
    Runs.Reaches (MessageQueue.step fun l a => l ++ [a]) (start 1 [7, 8] []) s ∧
      s.pc = .left ∧ s.sink = [7, 8] := by
  let take : List MessageQueueAction := [.pop, .dequeue, .dequeue, .dequeue, .dequeue, .dequeue]
  let schedule : List MessageQueueAction :=
    [.push, .enqueue, .enqueue, .enqueue, .enqueue, .testDone] ++ take ++
      [.loopEnd, .testDone, .push, .enqueue, .enqueue, .enqueue, .enqueue, .enqueue, .setDone] ++
      take ++ [.loopEnd, .testDone, .isEmpty, .count, .count, .count, .count, .pop, .dequeue,
        .dequeue, .dequeue, .dequeue, .loopEnd]
  have hrun : ((Runs.run (MessageQueue.step fun l a => l ++ [a])
      (start 1 [7, 8] ([] : List Nat)) schedule).map fun s => s.pc) = some .left := by
    decide +kernel
  obtain ⟨s, hs, hleft⟩ := Option.map_eq_some_iff.mp hrun
  exact ⟨s, Runs.reaches_of_run hs, hleft,
    ((messageQueue_handsOff _ 1 [7, 8] [] s (Runs.reaches_of_run hs)).2 hleft).2.2⟩

end MessageQueue

end Debe
