import Debe.QueueInvariant

/-!
# Runs of the queue

Over every run of the two threads, from a new queue on: elements come out in the order in
which they went in, none twice and none from nowhere; a call of `try_dequeue` fails only if
the queue was empty, and one of `try_enqueue` only if it held as many elements as it was made
for, at some moment of the call; `size_approx` is exact while the producer is between calls;
and no call ever waits for the other thread.
-/

namespace Debe

open CircularBuffer

variable {α : Type*}

/-! ## A new queue -/

theorem ceilToPow2_eq {x : Nat} (hx : x ≤ 2 ^ 64) : ceilToPow2 x = 2 ^ (x - 1).size := by
  by_cases hzero : x = 0
  · subst hzero
    rfl
  have hsmeared : Smeared (x - 1) 64 (ceilToPow2 x - 1) :=
    (((((smeared_one (x - 1)).double.double).double).double).double).double
  have hpos := Nat.two_pow_pos (x - 1).size
  have hones := hsmeared.eq_ones (by omega)
  have hsucc : ceilToPow2 x = ceilToPow2 x - 1 + 1 := rfl
  omega

/-- What the constructor lays out: one block that is large enough, or blocks of which one may
be the consumer's and the others are large enough together. -/
structure Layout (size blocks k : Nat) : Prop where
  pos : 0 < blocks
  small : blocks * 2 ^ k < 2 ^ 64
  room : blocks = 1 ∧ size < 2 ^ k ∨
    1 < blocks ∧ 2 ≤ 2 ^ k ∧ size ≤ (blocks - 1) * (2 ^ k - 1)

theorem Layout.two {size blocks k : Nat} (h : Layout size blocks k) : blocks = 1 ∨ 2 ≤ 2 ^ k := by
  rcases h.room with h | h
  · exact .inl h.1
  · exact .inr h.2.1

theorem layout (size : UInt32) :
    ∃ k, (blockLayout size.toNat).2 = 2 ^ k ∧
      Layout size.toNat (blockLayout size.toNat).1 k := by
  have hsize := size.toNat_lt
  generalize size.toNat = size at *
  have hceil := ceilToPow2_eq (x := size + 1) (by omega)
  rw [Nat.add_sub_cancel] at hceil
  have hlt := Nat.lt_size_self size
  have hle : 2 ^ size.size ≤ 2 ^ 32 := Nat.pow_le_pow_right (by omega) (Nat.size_le.mpr hsize)
  simp only [blockLayout, maxBlockSize, hceil]
  split
  · next hlarge =>
      have hge : 1024 ≤ size := by
        by_contra hsmall
        have hbits : size.size ≤ 10 := Nat.size_le.mpr (by omega)
        have hpow : 2 ^ size.size ≤ 2 ^ 10 := Nat.pow_le_pow_right (by omega) hbits
        omega
      exact ⟨9, rfl, by omega, by omega, .inr ⟨by omega, by omega, by omega⟩⟩
  · exact ⟨size.size, rfl, by omega, by omega, .inl ⟨rfl, by omega⟩⟩

theorem linkBlock_zero (capacity : Nat) (block : Nat → Block α) :
    linkBlock capacity block 0 = Function.update block 0 (makeBlock capacity) := by
  funext j
  by_cases hj : j = 0
  · subst hj
    simp [linkBlock, makeBlock]
  · simp [linkBlock, hj]

theorem linkBlock_succ (capacity : Nat) (block : Nat → Block α) (i j : Nat) :
    linkBlock capacity block (i + 1) j =
      if j = i + 1 then makeBlock capacity
      else if j = i then { block i with next := i + 1 } else block j := by
  by_cases hj : j = i + 1
  · subst hj
    simp [linkBlock, makeBlock]
  · by_cases hi : j = i
    · subst hi
      simp [linkBlock]
    · simp [linkBlock, hj, hi]

/-- The blocks after some rounds of the constructor's loop: a ring. -/
theorem foldl_linkBlock (capacity : Nat) (block : Nat → Block α) {n i : Nat} (hi : i < n) :
    (List.range n).foldl (linkBlock capacity) block i =
      { makeBlock capacity with next := next n i } := by
  induction n generalizing i with
  | zero => omega
  | succ n ih =>
      rw [List.range_succ, List.foldl_append, List.foldl_cons, List.foldl_nil]
      cases n with
      | zero =>
          have hzero : i = 0 := by omega
          subst hzero
          rw [linkBlock_zero, Function.update_self]
          rfl
      | succ n =>
          rw [linkBlock_succ]
          by_cases hlast : i = n + 1
          · rw [if_pos hlast, hlast, next, if_pos rfl]
            rfl
          · have hne : i + 1 ≠ n + 2 := by omega
            rw [if_neg hlast, next, if_neg hne]
            split
            · next hprev => rw [hprev, ih (by omega)]
            · next hprev =>
                rw [ih (by omega), next, if_neg (by omega)]

namespace Handoff

/-- What holds between any two accesses. -/
structure Inv (k blocks : Nat) (link : Nat → Nat) (s : Handoff α) (path rest : List Nat)
    (stored : Nat → List (Option α)) (queued : List α) : Prop where
  ring : Ring k link s.queue s.enqueuer path rest stored
  enqueuer : EnqueueAt k link s.queue rest stored s.enqueuer
  dequeuer : DequeueAt k link s.queue stored s.dequeuer
  content : Content s.dequeuer queued (path.flatMap stored)
  history : s.accepted = s.received ++ queued
  length_eq : (path ++ rest).length = blocks

/-- The invariant holds for some cut of the ring. -/
def Sound (k blocks : Nat) (link : Nat → Nat) (s : Handoff α) : Prop :=
  ∃ path rest stored queued, Inv k blocks link s path rest stored queued

variable {k blocks size : Nat} {link : Nat → Nat} {s t : Handoff α} {path rest : List Nat}
  {stored : Nat → List (Option α)} {queued : List α}

theorem stores_makeBlock (k next : Nat) :
    BlockHolds k { (makeBlock (2 ^ k) : Block α) with next := next } [] [] where
  mask := rfl
  front_lt := Nat.two_pow_pos k
  tail_lt := Nat.two_pow_pos k
  gap_eq := gap_self
  holds := holds_nil fun _ _ => rfl

theorem isChain_range' (m n : Nat) (h : 0 < n) :
    (List.range' m n ++ [0]).IsChain fun a b => next (m + n) a = b := by
  induction n generalizing m with
  | zero => omega
  | succ n ih =>
      cases n with
      | zero => simp [next]
      | succ n =>
          have hstep := ih (m + 1) (by omega)
          have hsum : m + 1 + (n + 1) = m + (n + 1 + 1) := by omega
          rw [hsum] at hstep
          rw [List.range'_succ, List.range'_succ, List.cons_append, List.cons_append,
            List.isChain_cons_cons]
          refine ⟨?_, ?_⟩
          · rw [next, if_neg (by omega)]
          · rw [List.range'_succ, List.cons_append] at hstep
            exact hstep

/-- A new queue is sound. -/
theorem inv_start (hcapacity : (blockLayout size).2 = 2 ^ k)
    (hlayout : Layout size (blockLayout size).1 k) :
    Inv k (blockLayout size).1 (next (blockLayout size).1) (start size : Handoff α) [0]
      (List.range' 1 ((blockLayout size).1 - 1)) (fun _ => []) [] := by
  have hpos := hlayout.pos
  generalize hblocks : (blockLayout size).1 = n at *
  have hring : [0] ++ List.range' 1 (n - 1) = List.range' 0 n := by
    obtain ⟨m, rfl⟩ := Nat.exists_eq_succ_of_ne_zero hpos.ne'
    rfl
  have hblock {a : Nat} (ha : a ∈ List.range' 0 n) : (start size : Handoff α).queue.block a =
      { (makeBlock (2 ^ k) : Block α) with next := next n a } := by
    have hlt : a < n := by
      have hmem := List.mem_range'_1.mp ha
      omega
    simp only [start, ReaderWriterQueue.make, hblocks, hcapacity]
    exact foldl_linkBlock _ _ hlt
  have hzero : (start size : Handoff α).queue.block 0 =
      { (makeBlock (2 ^ k) : Block α) with next := next n 0 } :=
    hblock (List.mem_range'_1.mpr (by omega))
  exact {
    ring := {
      linked := by
        rw [hring]
        intro a ha
        rw [hblock ha]
      chain := by
        rw [hring]
        have hchain := isChain_range' 0 n hpos
        rwa [Nat.zero_add] at hchain
      nodup := by
        rw [hring]
        exact List.nodup_range'
      front := rfl
      tail := rfl
      stores := by
        rw [hring]
        intro a ha
        rw [hblock ha]
        exact stores_makeBlock k _
      full := by
        intro a ha hne
        exact absurd (List.mem_singleton.mp ha) hne
      filled := by
        intro a ha hne
        exact absurd (List.mem_singleton.mp ha) hne
      free := fun _ _ => rfl
      localTail_lt := by
        change ((start size : Handoff α).queue.block 0).localTail < 2 ^ k
        rw [hzero]
        exact Nat.two_pow_pos k
      localTail := by
        change gap _ ((start size : Handoff α).queue.block 0).front
          ((start size : Handoff α).queue.block 0).localTail ≤ 0
        rw [hzero]
        exact gap_self.le
      localFront_lt := by
        change ((start size : Handoff α).queue.block 0).localFront < 2 ^ k
        rw [hzero]
        exact Nat.two_pow_pos k
      localFront := by
        change gap _ ((start size : Handoff α).queue.block 0).localFront
          ((start size : Handoff α).queue.block 0).front + 0 =
          gap _ ((start size : Handoff α).queue.block 0).localFront
            ((start size : Handoff α).queue.block 0).tail
        rw [hzero]
        rfl }
    enqueuer := trivial
    dequeuer := trivial
    content := rfl
    history := rfl
    length_eq := by
      rw [hring, List.length_range'] }

/-- An element added behind those in the queue. -/
theorem content_append {pc : DequeuePc α} {l : List (Option α)}
    (h : Content pc queued l) (added : List α) :
    Content pc (queued ++ added) (l ++ added.map some) := by
  cases pc with
  | storeFront a f x =>
      obtain ⟨rest, rfl, rfl⟩ := h
      exact ⟨rest ++ added, rfl, by simp⟩
  | _ =>
      have hl : l = queued.map some := h
      simp [Content, hl]

/-- The producer's part of a step. -/
theorem Inv.of_produced (h : Inv k blocks link s path rest stored queued)
    {q' : ReaderWriterQueue α} {pc' : EnqueuePc α} {path' rest' : List Nat}
    {stored' : Nat → List (Option α)}
    (hproduced : Produced k link s.queue q' pc' path rest stored path' rest' stored') :
    Inv k blocks link
      { s with queue := q', enqueuer := pc', accepted := s.accepted ++ pc'.accepted }
      path' rest' stored' (queued ++ pc'.accepted) where
  ring := hproduced.ring
  enqueuer := hproduced.position
  dequeuer := h.dequeuer.by_producer hproduced.frame
  content := by
    rw [hproduced.content]
    exact content_append h.content _
  history := by
    rw [h.history, List.append_assoc]
  length_eq := hproduced.length_eq.trans h.length_eq

/-- The consumer's part of a step. -/
theorem Inv.of_consumed (h : Inv k blocks link s path rest stored queued)
    {q' : ReaderWriterQueue α} {dpc' : DequeuePc α} {path' rest' : List Nat}
    {stored' : Nat → List (Option α)} {queued' : List α}
    (hconsumed : Consumed k link s.queue q' s.enqueuer dpc' path rest stored queued
      path' rest' stored' queued') :
    Inv k blocks link
      { s with queue := q', dequeuer := dpc', received := s.received ++ dpc'.received }
      path' rest' stored' queued' where
  ring := hconsumed.ring
  enqueuer := h.enqueuer.by_consumer hconsumed.frame h.ring.front_not_mem
  dequeuer := hconsumed.position
  content := hconsumed.content
  history := by
    rw [h.history, hconsumed.received, List.append_assoc]
  length_eq := hconsumed.length_eq.trans h.length_eq

/-- Between calls the producer has nothing in a slot. -/
theorem idle_hands {pc : EnqueuePc α} (h : pc.idle = true) (a : Nat) :
    pc.constructed a = [] ∧ pc.published a = [] := by
  cases pc <;> first | exact ⟨rfl, rfl⟩ | cases h

/-- Outside the last access of `try_dequeue` the queue is what the blocks hold. -/
theorem content_of_idle {pc : DequeuePc α} (h : pc.idle = true) {l : List (Option α)}
    (hcontent : Content pc queued l) : l = queued.map some := by
  cases pc <;> first | exact hcontent | cases h

theorem Inv.of_count (h : Inv k blocks link s path rest stored queued) {pc : DequeuePc α}
    (hat : DequeueAt k link s.queue stored pc)
    (hcontent : Content pc queued (path.flatMap stored)) :
    Inv k blocks link { s with dequeuer := pc } path rest stored queued :=
  ⟨h.ring, h.enqueuer, hat, hcontent, h.history, h.length_eq⟩

/-- One access of `size_approx` changes nothing. -/
theorem Inv.count (h : Inv k blocks link s path rest stored queued) {pc : DequeuePc α}
    (hstep : s.queue.sizeApprox s.dequeuer = some pc) :
    Inv k blocks link { s with dequeuer := pc } path rest stored queued := by
  have hcontent := h.content
  cases hpc : s.dequeuer with
  | countFrontBlock =>
      rw [hpc] at hstep hcontent
      cases hstep
      exact h.of_count trivial hcontent
  | countFront a b r =>
      rw [hpc] at hstep hcontent
      cases hstep
      exact h.of_count trivial hcontent
  | countTail a b f r =>
      rw [hpc] at hstep hcontent
      cases hstep
      exact h.of_count trivial hcontent
  | countNext a b r =>
      rw [hpc] at hstep hcontent
      simp only [ReaderWriterQueue.sizeApprox, Option.some.injEq] at hstep
      subst hstep
      split
      · exact h.of_count trivial hcontent
      · exact h.of_count trivial hcontent
  | _ =>
      rw [hpc] at hstep
      cases hstep

/-- **One step.**  Every access of either thread keeps the invariant. -/
theorem Sound.step (h : Sound k blocks link s) (htwo : blocks = 1 ∨ 2 ≤ 2 ^ k)
    {a : HandoffAction α} (hstep : s.step a = some t) : Sound k blocks link t := by
  obtain ⟨path, rest, stored, queued, hinv⟩ := h
  cases a with
  | tryEnqueue x =>
      simp only [Handoff.step] at hstep
      split at hstep
      · next hidle =>
          cases hstep
          have hhands := idle_hands hidle
          exact ⟨path, rest, stored, queued,
            hinv.ring.withPc (fun a => (hhands a).1.symm) (fun a => (hhands a).2.symm), trivial,
            hinv.dequeuer, hinv.content, hinv.history, hinv.length_eq⟩
      · cases hstep
  | enqueue =>
      obtain ⟨⟨q', pc'⟩, hr, ht⟩ := Option.map_eq_some_iff.mp hstep
      subst ht
      obtain ⟨path', rest', stored', hproduced⟩ :=
        exists_produced hinv.ring hinv.enqueuer (by rwa [hinv.length_eq]) hr
      exact ⟨path', rest', stored', _, hinv.of_produced hproduced⟩
  | tryDequeue =>
      simp only [Handoff.step] at hstep
      split at hstep
      · next hidle =>
          cases hstep
          exact ⟨path, rest, stored, queued,
            hinv.of_count trivial (content_of_idle hidle hinv.content)⟩
      · cases hstep
  | dequeue =>
      obtain ⟨⟨q', pc'⟩, hr, ht⟩ := Option.map_eq_some_iff.mp hstep
      subst ht
      obtain ⟨path', rest', stored', queued', hconsumed⟩ :=
        exists_consumed hinv.ring hinv.enqueuer hinv.dequeuer hinv.content hr
      exact ⟨path', rest', stored', queued', hinv.of_consumed hconsumed⟩
  | sizeApprox =>
      simp only [Handoff.step] at hstep
      split at hstep
      · next hidle =>
          cases hstep
          exact ⟨path, rest, stored, queued,
            hinv.of_count trivial (content_of_idle hidle hinv.content)⟩
      · cases hstep
  | count =>
      obtain ⟨pc, hr, ht⟩ := Option.map_eq_some_iff.mp hstep
      subst ht
      exact ⟨path, rest, stored, queued, hinv.count hr⟩

/-- The runs of a new queue. -/
abbrev Run (size : UInt32) (s : Handoff α) : Prop :=
  Runs.Reaches Handoff.step (start size.toNat) s

/-- Every state of every run. -/
theorem sound_of_run {size : UInt32} (hrun : Run size s) :
    ∃ k blocks link, Layout size.toNat blocks k ∧ Sound k blocks link s := by
  obtain ⟨k, hcapacity, hlayout⟩ := layout size
  have hstart : Sound k _ (next _) (start size.toNat : Handoff α) :=
    ⟨_, _, _, _, inv_start hcapacity hlayout⟩
  exact ⟨k, _, _, hlayout,
    hrun.invariant (fun _ _ _ h hstep => h.step hlayout.two hstep) hstart⟩

/-- **First in, first out.**  Whatever the interleaving, what the consumer has received is the
first part of what the queue has accepted: nothing is lost, doubled, made up or overtaken. -/
theorem received_prefix (size : UInt32) (s : Handoff α) (hrun : Run size s) :
    s.received <+: s.accepted := by
  obtain ⟨k, blocks, link, _, path, rest, stored, queued, hinv⟩ := sound_of_run hrun
  exact ⟨queued, hinv.history.symm⟩

/-- A schedule that can be evaluated. -/
theorem exists_run {β : Type*} (r : Handoff α) (actions : List (HandoffAction α))
    (f : Handoff α → β) (b : β) (h : (Runs.run step r actions).map f = some b) :
    ∃ s, Runs.Reaches step r s ∧ f s = b := by
  obtain ⟨s, hs, hb⟩ := Option.map_eq_some_iff.mp h
  exact ⟨s, Runs.reaches_of_run hs, hb⟩

/-- Two schedules, one after the other. -/
theorem exists_runs {β γ : Type*} (r : Handoff α) (actions actions' : List (HandoffAction α))
    (f : Handoff α → β) (b : β) (g : Handoff α → γ) (c : γ)
    (h : (Runs.run step r actions).map f = some b)
    (h' : ((Runs.run step r actions).bind fun s => Runs.run step s actions').map g = some c) :
    ∃ s t, Runs.Reaches step r s ∧ Runs.Reaches step s t ∧ f s = b ∧ g t = c := by
  obtain ⟨s, hs, hb⟩ := Option.map_eq_some_iff.mp h
  rw [hs, Option.bind_some] at h'
  obtain ⟨t, ht, hc⟩ := exists_run s actions' g c h'
  exact ⟨s, t, Runs.reaches_of_run hs, ht, hb, hc⟩

/-- The second element goes in while the first is taken out. -/
theorem received_prefix_overlapping : ∃ s : Handoff Nat, Run 1 s ∧ s.accepted = [7, 8] ∧
    s.received = [7] ∧ s.received <+: s.accepted := by
  obtain ⟨s, hrun, hs⟩ := exists_run (start (1 : UInt32).toNat)
    [.tryEnqueue 7, .enqueue, .enqueue, .enqueue, .enqueue, .tryEnqueue 8, .enqueue, .tryDequeue,
      .dequeue, .dequeue, .enqueue, .dequeue, .dequeue, .dequeue, .enqueue, .enqueue, .enqueue]
    (fun s => (s.accepted, s.received)) ([7, 8], [7]) (by decide)
  obtain ⟨haccepted, hreceived⟩ := Prod.mk.inj hs
  exact ⟨s, hrun, haccepted, hreceived, received_prefix 1 s hrun⟩

/-- The slot that the producer is about to construct an element in. -/
def constructs : EnqueuePc α → Option (Nat × Nat)
  | .construct _ a t _ | .constructNext _ a t => some (a, t)
  | _ => none

/-- The slot that the consumer is about to move an element out of. -/
def takes : DequeuePc α → Option (Nat × Nat)
  | .take a f => some (a, f)
  | _ => none

theorem Inv.slot_free (h : Inv k blocks link s path rest stored queued) {a t : Nat}
    (hslot : constructs s.enqueuer = some (a, t)) : (s.queue.block a).data t = none := by
  have hring := h.ring
  have hat := h.enqueuer
  cases hpc : s.enqueuer with
  | construct x b u v =>
      rw [hpc] at hslot hring hat
      cases hslot
      obtain ⟨rfl, rfl, _⟩ := hat
      exact BlockHolds.slot_tail hring.at_tail
  | constructNext x b u =>
      rw [hpc] at hslot hring hat
      cases hslot
      obtain ⟨hb, rfl, _⟩ := hat
      exact BlockHolds.slot_tail
        (hring.stores _ (List.mem_append_right path (List.mem_of_mem_head? hb)))
  | _ =>
      rw [hpc] at hslot
      cases hslot

theorem Inv.slot_filled (h : Inv k blocks link s path rest stored queued) {a f : Nat}
    (hslot : takes s.dequeuer = some (a, f)) : ∃ x, (s.queue.block a).data f = some x := by
  have hat := h.dequeuer
  have hcontent := h.content
  cases hpc : s.dequeuer with
  | take b g =>
      rw [hpc] at hslot hat hcontent
      cases hslot
      obtain ⟨rfl, rfl, _, hfilled⟩ := hat
      obtain ⟨o, l, hl⟩ := List.exists_cons_of_ne_nil hfilled
      obtain ⟨p, hp⟩ := h.ring.path_eq
      have hs := h.ring.at_front
      rw [hl] at hs
      have hall : path.flatMap stored = queued.map some := hcontent
      rw [hp, List.flatMap_cons, hl, List.cons_append] at hall
      obtain ⟨x, queued', rfl, rfl, _⟩ := List.map_eq_cons_iff.mp hall.symm
      exact ⟨x, hs.slot_front⟩
  | _ =>
      rw [hpc] at hslot
      cases hslot

/-- In no run does an assertion fail, or an element meet another in its slot. -/
theorem not_broken_of_run {size : UInt32} (hrun : Run size s) :
    s.enqueuer ≠ .broken ∧ s.dequeuer ≠ .broken := by
  obtain ⟨k, blocks, link, _, path, rest, stored, queued, hinv⟩ := sound_of_run hrun
  have henqueuer := hinv.enqueuer
  have hdequeuer := hinv.dequeuer
  constructor
  · intro hbroken
    rw [hbroken] at henqueuer
    exact henqueuer
  · intro hbroken
    rw [hbroken] at hdequeuer
    exact hdequeuer

/-- **No element is touched twice.**  In no run does an assertion fail, is an element built on
top of another or read from a slot without one, or are both threads about to access one slot. -/
theorem slots_apart (size : UInt32) (s : Handoff α) (hrun : Run size s) :
    s.enqueuer ≠ .broken ∧ s.dequeuer ≠ .broken ∧
      ∀ slot, constructs s.enqueuer = some slot → takes s.dequeuer ≠ some slot := by
  obtain ⟨henqueuer, hdequeuer⟩ := not_broken_of_run hrun
  obtain ⟨k, blocks, link, _, path, rest, stored, queued, hinv⟩ := sound_of_run hrun
  refine ⟨henqueuer, hdequeuer, ?_⟩
  rintro ⟨a, f⟩ hconstructs htakes
  obtain ⟨x, hx⟩ := hinv.slot_filled htakes
  rw [hinv.slot_free hconstructs] at hx
  cases hx

/-- Both threads are in the same block. -/
theorem slots_apart_one_block : ∃ s : Handoff Nat, Run 3 s ∧
    constructs s.enqueuer = some (0, 1) ∧ takes s.dequeuer = some (0, 0) ∧
    takes s.dequeuer ≠ some (0, 1) := by
  obtain ⟨s, hrun, hs⟩ := exists_run (start (3 : UInt32).toNat)
    [.tryEnqueue 7, .enqueue, .enqueue, .enqueue, .enqueue, .tryEnqueue 8, .enqueue, .enqueue,
      .tryDequeue, .dequeue, .dequeue, .dequeue]
    (fun s => (constructs s.enqueuer, takes s.dequeuer)) (some (0, 1), some (0, 0)) (by decide)
  obtain ⟨hconstructs, htakes⟩ := Prod.mk.inj hs
  exact ⟨s, hrun, hconstructs, htakes, (slots_apart 3 s hrun).2.2 _ hconstructs⟩

/-! ## What a failed call has seen -/

/-- The queue was empty at some moment since `s`. -/
def EmptySince (s t : Handoff α) : Prop :=
  ∃ u, Runs.Reaches step s u ∧ Runs.Reaches step u t ∧ u.received = u.accepted

/-- The queue held `n` elements at some moment since `s`. -/
def FullSince (n : Nat) (s t : Handoff α) : Prop :=
  ∃ u, Runs.Reaches step s u ∧ Runs.Reaches step u t ∧
    n ≤ u.accepted.length - u.received.length

theorem EmptySince.step {r : Handoff α} {a : HandoffAction α} (h : EmptySince r s)
    (hstep : s.step a = some t) : EmptySince r t := by
  obtain ⟨u, hru, hus, hempty⟩ := h
  exact ⟨u, hru, hus.trans (Runs.reaches_of_step hstep), hempty⟩

theorem FullSince.step {n : Nat} {r : Handoff α} {a : HandoffAction α} (h : FullSince n r s)
    (hstep : s.step a = some t) : FullSince n r t := by
  obtain ⟨u, hru, hus, hfull⟩ := h
  exact ⟨u, hru, hus.trans (Runs.reaches_of_step hstep), hfull⟩

theorem content_length {pc : DequeuePc α} {l : List (Option α)} (h : Content pc queued l) :
    l.length = queued.length := by
  cases pc with
  | storeFront a f x =>
      obtain ⟨rest, rfl, rfl⟩ := h
      simp
  | _ =>
      have hl : l = queued.map some := h
      simp [hl]

theorem Inv.occupancy (h : Inv k blocks link s path rest stored queued) :
    s.accepted.length - s.received.length = (path.flatMap stored).length := by
  rw [content_length h.content, h.history, List.length_append]
  omega

/-- With both threads in one block the path is that block. -/
theorem Inv.path_singleton (h : Inv k blocks link s path rest stored queued)
    (heq : s.queue.frontBlock = s.queue.tailBlock) : path = [s.queue.frontBlock] := by
  obtain ⟨p, hp⟩ := h.ring.path_eq
  have hnotin := h.ring.front_notMem_tail hp
  have htail := h.ring.tail
  rw [hp] at htail ⊢
  cases p with
  | nil => rfl
  | cons b p =>
      rw [List.getLast?_cons_cons, ← heq] at htail
      exact absurd (List.mem_of_getLast? htail) hnotin

/-- A consumer that has found the front block empty and is about to look where the producer is
has seen the queue empty, unless the producer is in another block. -/
def LooksEmpty (r t : Handoff α) : Prop :=
  (t.dequeuer = .dequeued none → EmptySince r t) ∧
    ∀ a, t.dequeuer = .loadTailBlock a → t.queue.frontBlock = t.queue.tailBlock → EmptySince r t

/-- `try_dequeue` fails where it finds itself in the tail block. -/
theorem tryDequeue_failed {q q' : ReaderWriterQueue α} {pc : DequeuePc α}
    (h : q.tryDequeue pc = some (q', .dequeued none)) : pc = .loadTailBlock q.tailBlock := by
  cases pc <;> simp only [ReaderWriterQueue.tryDequeue] at h <;> grind

/-- `try_dequeue` looks for the tail block after finding the front block empty. -/
theorem tryDequeue_loadTailBlock {q q' : ReaderWriterQueue α} {pc : DequeuePc α} {a : Nat}
    (h : q.tryDequeue pc = some (q', .loadTailBlock a)) :
    pc = .loadTail a (q.block a).tail ∧ q'.frontBlock = q.frontBlock ∧
      q'.tailBlock = q.tailBlock := by
  cases pc <;> simp only [ReaderWriterQueue.tryDequeue] at h <;> grind [ReaderWriterQueue.modify]

theorem sizeApprox_counts {q : ReaderWriterQueue α} {pc pc' : DequeuePc α}
    (h : q.sizeApprox pc = some pc') : pc' ≠ .dequeued none ∧ ∀ a, pc' ≠ .loadTailBlock a := by
  cases pc <;> simp only [ReaderWriterQueue.sizeApprox] at h <;> grind

theorem LooksEmpty.of_ne {r : Handoff α} (hfailed : t.dequeuer ≠ .dequeued none)
    (hlook : ∀ a, t.dequeuer ≠ .loadTailBlock a) : LooksEmpty r t :=
  ⟨fun h => absurd h hfailed, fun a h => absurd h (hlook a)⟩

theorem LooksEmpty.dequeue {r : Handoff α} (hinv : Inv k blocks link s path rest stored queued)
    (hrs : Runs.Reaches step r s) (h : LooksEmpty r s) (hstep : s.step .dequeue = some t) :
    LooksEmpty r t := by
  have hat := hinv.dequeuer
  obtain ⟨⟨q', pc'⟩, hr, rfl⟩ := Option.map_eq_some_iff.mp hstep
  constructor
  · intro hret
    have hpc' : pc' = .dequeued none := hret
    rw [hpc'] at hr
    have hpc := tryDequeue_failed hr
    rw [hpc] at hat
    exact (h.2 _ hpc (Eq.symm hat)).step hstep
  · intro a hret heq
    have hpc' : pc' = .loadTailBlock a := hret
    rw [hpc'] at hr
    obtain ⟨hpc, hfront, htail⟩ := tryDequeue_loadTailBlock hr
    rw [hpc] at hat
    obtain ⟨rfl, hempty⟩ := hat
    have hsame : s.queue.frontBlock = s.queue.tailBlock := hfront.symm.trans (heq.trans htail)
    have hnil : stored s.queue.frontBlock = [] := hinv.ring.at_front.empty_iff.mp hempty.symm
    have hoccupancy := hinv.occupancy
    rw [hinv.path_singleton hsame, List.flatMap_singleton, hnil, hinv.history] at hoccupancy
    have hqueued : queued = [] := by
      rw [List.length_append, Nat.add_sub_cancel_left, List.length_nil] at hoccupancy
      exact List.length_eq_zero_iff.mp hoccupancy
    exact ⟨s, hrs, Runs.reaches_of_step hstep, by rw [hinv.history, hqueued, List.append_nil]⟩

/-- The producer's steps leave a consumer's look as good as it was. -/
theorem LooksEmpty.enqueue {r : Handoff α} (hinv : Inv k blocks link s path rest stored queued)
    (htwo : blocks = 1 ∨ 2 ≤ 2 ^ k) (h : LooksEmpty r s) (hstep : s.step .enqueue = some t) :
    LooksEmpty r t := by
  obtain ⟨⟨q', pc'⟩, hr, rfl⟩ := Option.map_eq_some_iff.mp hstep
  obtain ⟨path', rest', stored', hproduced⟩ :=
    exists_produced hinv.ring hinv.enqueuer (by rwa [hinv.length_eq]) hr
  refine ⟨fun hret => (h.1 hret).step hstep, fun a hret heq => (h.2 a hret ?_).step hstep⟩
  by_contra hne
  have hne' := hproduced.frame.tailBlock hne
  rw [← hproduced.frame.frontBlock] at hne'
  exact hne' heq

theorem LooksEmpty.step {r : Handoff α} (hinv : Inv k blocks link s path rest stored queued)
    (htwo : blocks = 1 ∨ 2 ≤ 2 ^ k) (hrs : Runs.Reaches Handoff.step r s) (h : LooksEmpty r s)
    {a : HandoffAction α} (hstep : s.step a = some t) : LooksEmpty r t := by
  cases a with
  | dequeue => exact h.dequeue hinv hrs hstep
  | enqueue => exact h.enqueue hinv htwo hstep
  | tryEnqueue x =>
      have hstep' := hstep
      simp only [Handoff.step] at hstep'
      split at hstep'
      · cases hstep'
        exact ⟨fun hret => (h.1 hret).step hstep, fun a hret heq => (h.2 a hret heq).step hstep⟩
      · cases hstep'
  | tryDequeue =>
      simp only [Handoff.step] at hstep
      split at hstep
      · cases hstep
        exact .of_ne (by simp) (by simp)
      · cases hstep
  | sizeApprox =>
      simp only [Handoff.step] at hstep
      split at hstep
      · cases hstep
        exact .of_ne (by simp) (by simp)
      · cases hstep
  | count =>
      obtain ⟨pc, hpc, rfl⟩ := Option.map_eq_some_iff.mp hstep
      exact .of_ne (sizeApprox_counts hpc).1 (sizeApprox_counts hpc).2

/-- **A failed `try_dequeue` has seen the queue empty.**  At some moment of the call every
element accepted had been received. -/
theorem tryDequeue_false (size : UInt32) (r t : Handoff α) (hrun : Run size r)
    (hcall : r.dequeuer = .loadFrontBlock) (hreach : Runs.Reaches step r t)
    (hret : t.dequeuer = .dequeued none) : EmptySince r t := by
  have hall : LooksEmpty r t := by
    clear hret
    induction hreach with
    | refl => exact .of_ne (by simp [hcall]) (by simp [hcall])
    | tail hru hnext ih =>
        obtain ⟨a, hstep⟩ := hnext
        obtain ⟨k, blocks, link, hlayout, path, rest, stored, queued, hinv⟩ :=
          sound_of_run (hrun.trans hru)
        exact ih.step hinv hlayout.two hru hstep
  exact hall.1 hret

/-- An element comes in between the look and the return. -/
theorem tryDequeue_false_late : ∃ r t : Handoff Nat, t.dequeuer = .dequeued none ∧
    t.accepted = [7] ∧ EmptySince r t := by
  obtain ⟨r, t, hrun, hreach, hcall, hs⟩ := exists_runs (start (1 : UInt32).toNat) [.tryDequeue]
    [.dequeue, .dequeue, .dequeue, .tryEnqueue 7, .enqueue, .enqueue, .enqueue, .enqueue, .dequeue]
    Handoff.dequeuer .loadFrontBlock
    (fun t => (t.dequeuer, t.accepted)) (.dequeued none, [7]) (by decide) (by decide)
  obtain ⟨hret, haccepted⟩ := Prod.mk.inj hs
  exact ⟨r, t, hret, haccepted, tryDequeue_false 1 r t hrun hcall hreach hret⟩

/-! ### A full queue -/

/-- `try_enqueue` fails where the front block comes next. -/
theorem innerEnqueue_failed {q q' : ReaderWriterQueue α} {pc : EnqueuePc α} {x : α}
    (h : q.innerEnqueue pc = some (q', .returned x false)) :
    ∃ a b, pc = .loadFrontBlock x a b ∧ b = q.frontBlock := by
  cases pc with
  | loadFrontBlock y a b =>
      simp only [ReaderWriterQueue.innerEnqueue] at h
      split at h
      · cases h
      · next heq =>
          cases h
          exact ⟨a, b, rfl, Decidable.not_not.mp heq⟩
  | _ =>
      simp only [ReaderWriterQueue.innerEnqueue] at h
      grind

/-- `try_enqueue` looks for the next block after finding the tail block full. -/
theorem innerEnqueue_loadNext {q q' : ReaderWriterQueue α} {pc : EnqueuePc α} {x : α} {a : Nat}
    (h : q.innerEnqueue pc = some (q', .loadNext x a)) :
    ∃ t t', pc = .loadFront x a t t' ∧ t' = (q.block a).front := by
  cases pc with
  | loadFront y b t t' =>
      simp only [ReaderWriterQueue.innerEnqueue] at h
      split at h
      · cases h
      · next heq =>
          cases h
          exact ⟨t, t', rfl, Decidable.not_not.mp heq⟩
  | _ =>
      simp only [ReaderWriterQueue.innerEnqueue] at h
      grind

theorem innerEnqueue_loadFrontBlock {q q' : ReaderWriterQueue α} {pc : EnqueuePc α} {x : α}
    {a b : Nat} (h : q.innerEnqueue pc = some (q', .loadFrontBlock x a b)) :
    pc = .loadNext x a := by
  cases pc <;> simp only [ReaderWriterQueue.innerEnqueue] at h <;> grind

/-- A producer that has found its block full has seen the queue full, if that is all there is. -/
def LooksFull (n blocks : Nat) (r t : Handoff α) : Prop :=
  (∀ x, t.enqueuer = .returned x false → FullSince n r t) ∧
    ∀ x a, t.enqueuer = .loadNext x a ∨ (∃ b, t.enqueuer = .loadFrontBlock x a b) →
      blocks = 1 → FullSince n r t

/-- The blocks behind the front block hold all they can. -/
theorem Inv.length_of_full (h : Inv k blocks link s path rest stored queued)
    (hrest : rest = []) (hne : s.queue.tailBlock ≠ s.queue.frontBlock)
    (hfull : TailFull k s.queue stored) :
    (blocks - 1) * (2 ^ k - 1) ≤ s.accepted.length - s.received.length := by
  obtain ⟨p, hp⟩ := h.ring.path_eq
  have hnotin := h.ring.front_notMem_tail hp
  have hblock : ∀ a ∈ p, (stored a).length = 2 ^ k - 1 := by
    intro a ha
    have hmem : a ∈ path := by
      rw [hp]
      exact List.mem_cons_of_mem _ ha
    have hfront : a ≠ s.queue.frontBlock := by
      rintro rfl
      exact hnotin ha
    have hlen : (stored a).length + 1 = 2 ^ k := by
      by_cases htail : a = s.queue.tailBlock
      · rw [htail]
        exact hfull hne
      · exact h.ring.full a hmem hfront htail
    omega
  have hlength := h.length_eq
  rw [hrest, hp, List.append_nil, List.length_cons] at hlength
  have hsum : (p.flatMap stored).length = p.length * (2 ^ k - 1) := by
    rw [List.length_flatMap, List.map_congr_left hblock, List.map_const', List.sum_replicate_nat]
  rw [h.occupancy, hp, List.flatMap_cons, List.length_append, hsum]
  have hcount : blocks - 1 = p.length := by omega
  rw [hcount]
  omega

theorem LooksFull.enqueue {r : Handoff α} (hinv : Inv k blocks link s path rest stored queued)
    (hlayout : Layout size blocks k) (hrs : Runs.Reaches step r s) (h : LooksFull size blocks r s)
    (hstep : s.step .enqueue = some t) : LooksFull size blocks r t := by
  have hat := hinv.enqueuer
  obtain ⟨⟨q', pc'⟩, hr, rfl⟩ := Option.map_eq_some_iff.mp hstep
  constructor
  · intro x hret
    have hpc' : pc' = .returned x false := hret
    rw [hpc'] at hr
    obtain ⟨a, b, hpc, rfl⟩ := innerEnqueue_failed hr
    rw [hpc] at hat
    obtain ⟨rfl, hb, hfull⟩ := hat
    by_cases hone : blocks = 1
    · exact (h.2 x _ (.inr ⟨_, hpc⟩) hone).step hstep
    · have hrest : rest = [] := by
        by_contra hne
        exact hinv.ring.link_tail_ne_iff.mpr hne hb.symm
      have hne : s.queue.tailBlock ≠ s.queue.frontBlock := by
        intro heq
        have hlength := hinv.length_eq
        rw [hinv.path_singleton heq.symm, hrest] at hlength
        exact hone hlength.symm
      have hle := hinv.length_of_full hrest hne hfull
      have hroom := hlayout.room
      exact ⟨s, hrs, Runs.reaches_of_step hstep, by omega⟩
  · rintro x a (hret | ⟨b, hret⟩) hone
    · have hpc' : pc' = .loadNext x a := hret
      rw [hpc'] at hr
      obtain ⟨t, t', hpc, rfl⟩ := innerEnqueue_loadNext hr
      rw [hpc] at hat
      obtain ⟨rfl, rfl, heq⟩ := hat
      have hsame : s.queue.frontBlock = s.queue.tailBlock := by
        have hlength := hinv.length_eq
        obtain ⟨p, hp⟩ := hinv.ring.path_eq
        have htail := hinv.ring.tail_mem
        rw [hone, hp, List.length_append, List.length_cons] at hlength
        have hnil : p = [] := List.length_eq_zero_iff.mp (by omega)
        rw [hp, hnil] at htail
        exact (List.mem_singleton.mp htail).symm
      have hfull := hinv.ring.at_tail.full_iff.mp heq.symm
      have hoccupancy := hinv.occupancy
      rw [hinv.path_singleton hsame, List.flatMap_singleton, hsame] at hoccupancy
      have hroom := hlayout.room
      exact ⟨s, hrs, Runs.reaches_of_step hstep, by omega⟩
    · have hpc' : pc' = .loadFrontBlock x a b := hret
      rw [hpc'] at hr
      exact (h.2 x a (.inl (innerEnqueue_loadFrontBlock hr)) hone).step hstep

theorem LooksFull.of_same {n : Nat} {r : Handoff α} (h : LooksFull n blocks r s)
    {a : HandoffAction α} (hstep : s.step a = some t) (hpc : t.enqueuer = s.enqueuer) :
    LooksFull n blocks r t :=
  ⟨fun x hret => (h.1 x (hpc ▸ hret)).step hstep,
    fun x a hret hone => (h.2 x a (hpc ▸ hret) hone).step hstep⟩

theorem LooksFull.step {r : Handoff α} (hinv : Inv k blocks link s path rest stored queued)
    (hlayout : Layout size blocks k) (hrs : Runs.Reaches Handoff.step r s)
    (h : LooksFull size blocks r s) {a : HandoffAction α} (hstep : s.step a = some t) :
    LooksFull size blocks r t := by
  cases a with
  | enqueue => exact h.enqueue hinv hlayout hrs hstep
  | tryEnqueue x =>
      simp only [Handoff.step] at hstep
      split at hstep
      · cases hstep
        exact ⟨fun x h => (by simp at h), fun x a h => (by simp at h)⟩
      · cases hstep
  | tryDequeue =>
      have hstep' := hstep
      simp only [Handoff.step] at hstep'
      split at hstep'
      · cases hstep'
        exact h.of_same hstep rfl
      · cases hstep'
  | dequeue =>
      obtain ⟨r, hr, rfl⟩ := Option.map_eq_some_iff.mp hstep
      exact h.of_same hstep rfl
  | sizeApprox =>
      have hstep' := hstep
      simp only [Handoff.step] at hstep'
      split at hstep'
      · cases hstep'
        exact h.of_same hstep rfl
      · cases hstep'
  | count =>
      obtain ⟨pc, hpc, rfl⟩ := Option.map_eq_some_iff.mp hstep
      exact h.of_same hstep rfl

/-- **A failed `try_enqueue` has seen the queue full.**  At some moment of the call there were
as many elements in the queue as it was made for. -/
theorem tryEnqueue_false (size : UInt32) (r t : Handoff α) (x : α) (hrun : Run size r)
    (hcall : r.enqueuer = .loadTailBlock x) (hreach : Runs.Reaches step r t)
    (hret : t.enqueuer = .returned x false) : FullSince size.toNat r t := by
  obtain ⟨k, blocks, link, hlayout, hsound⟩ := sound_of_run hrun
  have hall : LooksFull size.toNat blocks r t ∧ Sound k blocks link t := by
    clear hret
    induction hreach with
    | refl => exact ⟨⟨fun x h => by simp [hcall] at h, fun x a h => by simp [hcall] at h⟩, hsound⟩
    | tail hru hnext ih =>
        obtain ⟨a, hstep⟩ := hnext
        obtain ⟨hlook, hsound'⟩ := ih
        obtain ⟨path, rest, stored, queued, hinv⟩ := hsound'
        exact ⟨hlook.step hinv hlayout hru hstep,
          Sound.step ⟨path, rest, stored, queued, hinv⟩ hlayout.two hstep⟩
  exact hall.1.1 x hret

/-- A queue for one element holds one, which is taken out before the producer returns. -/
theorem tryEnqueue_false_late : ∃ r t : Handoff Nat, t.enqueuer = .returned 8 false ∧
    t.accepted = [7] ∧ t.received = [7] ∧ FullSince 1 r t := by
  obtain ⟨r, t, hrun, hreach, hcall, hs⟩ := exists_runs (start (1 : UInt32).toNat)
    [.tryEnqueue 7, .enqueue, .enqueue, .enqueue, .enqueue, .tryEnqueue 8]
    [.enqueue, .enqueue, .enqueue, .tryDequeue, .dequeue, .dequeue, .dequeue, .dequeue, .dequeue,
      .enqueue, .enqueue]
    Handoff.enqueuer (.loadTailBlock 8)
    (fun t => (t.enqueuer, t.accepted, t.received)) (.returned 8 false, [7], [7]) (by decide)
    (by decide)
  obtain ⟨hret, hs'⟩ := Prod.mk.inj hs
  obtain ⟨haccepted, hreceived⟩ := Prod.mk.inj hs'
  exact ⟨r, t, hret, haccepted, hreceived, tryEnqueue_false 1 r t 8 hrun hcall hreach hret⟩

/-! ## Counting -/

/-- How many elements some blocks hold. -/
def total (stored : Nat → List (Option α)) (l : List Nat) : Nat :=
  (l.map fun a => (stored a).length).sum

/-- What `size_approx` has added up where it stands, while the producer is between calls. -/
def Counts (q : ReaderWriterQueue α) (ring : List Nat) (stored : Nat → List (Option α)) :
    DequeuePc α → Prop
  | .countFront a b r => a = q.frontBlock ∧
      ∃ pre post, ring = pre ++ b :: post ∧ r = total stored pre
  | .countTail a b f r => a = q.frontBlock ∧ f = (q.block b).front ∧
      ∃ pre post, ring = pre ++ b :: post ∧ r = total stored pre
  | .countNext a b r => a = q.frontBlock ∧
      ∃ pre post, ring = pre ++ b :: post ∧ r = total stored (pre ++ [b])
  | .counted r => r = total stored ring
  | .countFrontBlock => True
  | _ => False

theorem total_append (stored : Nat → List (Option α)) (l l' : List Nat) :
    total stored (l ++ l') = total stored l + total stored l' := by
  simp [total]

theorem total_eq (stored : Nat → List (Option α)) (l : List Nat) :
    total stored l = (l.flatMap stored).length := by
  simp [total, List.length_flatMap]

/-- Between calls of the producer the blocks hold just the queue. -/
theorem Inv.total_eq_occupancy (h : Inv k blocks link s path rest stored queued)
    (hidle : s.enqueuer.idle = true) :
    total stored (path ++ rest) = s.accepted.length - s.received.length := by
  have hrest : rest.flatMap stored = [] := by
    rw [List.flatMap_eq_nil_iff]
    intro a ha
    rw [h.ring.free a ha, (idle_hands hidle a).2]
  rw [h.occupancy, total_eq, List.flatMap_append, hrest, List.append_nil]

/-- Sums of blocks fit in a `size_t`. -/
theorem Inv.total_lt (h : Inv k blocks link s path rest stored queued)
    (hlayout : Layout size blocks k) (pre post : List Nat) (hsplit : path ++ rest = pre ++ post) :
    total stored pre < 2 ^ 64 := by
  have hle : ∀ l : List Nat, (∀ a ∈ l, a ∈ path ++ rest) → total stored l ≤ l.length * 2 ^ k := by
    intro l
    induction l with
    | nil => simp [total]
    | cons a l ih =>
        intro hl
        have hlt := (h.ring.stores a (hl a (by simp))).length_lt
        have hrest := ih fun b hb => hl b (List.mem_cons_of_mem a hb)
        have hcons : total stored (a :: l) = (stored a).length + total stored l := by simp [total]
        rw [hcons, List.length_cons, Nat.succ_mul]
        omega
  have hpre := hle pre fun a ha => by
    rw [hsplit]
    exact List.mem_append_left post ha
  have hlength : pre.length ≤ blocks := by
    rw [← h.length_eq, hsplit, List.length_append]
    omega
  exact (hpre.trans (Nat.mul_le_mul_right _ hlength)).trans_lt hlayout.small

/-- The block after a block of the ring. -/
theorem Inv.link_eq (h : Inv k blocks link s path rest stored queued) {pre post : List Nat}
    {b : Nat} (hsplit : path ++ rest = pre ++ b :: post) :
    (post ++ [s.queue.frontBlock]).head? = some (link b) ∧
      (link b = s.queue.frontBlock ↔ post = []) := by
  have hchain := h.ring.chain
  have hnodup := h.ring.nodup
  obtain ⟨p, hp⟩ := h.ring.path_eq
  rw [hsplit, List.append_assoc, List.cons_append] at hchain
  have hright := (List.isChain_append.mp hchain).2.1
  cases post with
  | nil => exact ⟨congrArg some (List.isChain_pair.mp hright).symm, by simpa using hright⟩
  | cons c post =>
      have hlink : link b = c := (List.isChain_cons_cons.mp hright).1
      refine ⟨by rw [hlink]; rfl, ?_⟩
      simp only [reduceCtorEq, iff_false]
      intro heq
      -- the front block would come twice
      have hhead : (pre ++ b :: c :: post).head? = some s.queue.frontBlock := by
        rw [← hsplit, hp]
        rfl
      rw [hsplit] at hnodup
      have hc : c = s.queue.frontBlock := hlink.symm.trans heq
      cases pre with
      | nil =>
          simp only [List.nil_append, List.head?_cons, Option.some.injEq] at hhead
          rw [List.nil_append, hhead, hc] at hnodup
          simp at hnodup
      | cons d pre =>
          simp only [List.cons_append, List.head?_cons, Option.some.injEq] at hhead
          rw [hhead, hc] at hnodup
          simp at hnodup

/-- One access of `size_approx` while the producer is between calls. -/
theorem Counts.step (h : Inv k blocks link s path rest stored queued)
    (hlayout : Layout size blocks k)
    (hcounts : Counts s.queue (path ++ rest) stored s.dequeuer)
    {pc : DequeuePc α} (hstep : s.queue.sizeApprox s.dequeuer = some pc) :
    Counts s.queue (path ++ rest) stored pc := by
  cases hpc : s.dequeuer with
  | countFrontBlock =>
      rw [hpc] at hstep
      cases hstep
      obtain ⟨p, hp⟩ := h.ring.path_eq
      exact ⟨rfl, [], p ++ rest, by rw [hp]; rfl, rfl⟩
  | countFront a b r =>
      rw [hpc] at hstep hcounts
      cases hstep
      obtain ⟨ha, hsum⟩ := hcounts
      exact ⟨ha, rfl, hsum⟩
  | countTail a b f r =>
      rw [hpc] at hstep hcounts
      cases hstep
      obtain ⟨ha, rfl, pre, post, hsplit, rfl⟩ := hcounts
      have hs := h.ring.stores b (by simp [hsplit])
      have hk : k ≤ 64 := by
        have hlt : 2 ^ k < 2 ^ 64 :=
          (Nat.le_mul_of_pos_left _ hlayout.pos).trans_lt hlayout.small
        exact ((Nat.pow_lt_pow_iff_right (by omega)).mp hlt).le
      have hsize := sub_and_mask (w := 64) hk hs.front_lt hs.tail_lt
      refine ⟨ha, pre, post, hsplit, ?_⟩
      have hlt := h.total_lt hlayout (pre ++ [b]) post (by simp [hsplit])
      have hsum : total stored (pre ++ [b]) = total stored pre + (stored b).length := by
        simp [total]
      rw [hs.mask, hsize, hs.gap_eq, ← hsum, Nat.mod_eq_of_lt hlt]
  | countNext a b r =>
      rw [hpc] at hstep hcounts
      obtain ⟨rfl, pre, post, hsplit, rfl⟩ := hcounts
      obtain ⟨hhead, hend⟩ := h.link_eq hsplit
      have hlinked := h.ring.linked b (by simp [hsplit])
      simp only [ReaderWriterQueue.sizeApprox, hlinked, Option.some.injEq] at hstep
      subst hstep
      split
      · next hne =>
          cases post with
          | nil => exact absurd (hend.mpr rfl) hne
          | cons c post =>
              simp only [List.cons_append, List.head?_cons, Option.some.injEq] at hhead
              exact ⟨rfl, pre ++ [b], post, by simp [hsplit, hhead], rfl⟩
      · next heq =>
          have hnil := hend.mp (Decidable.not_not.mp heq)
          subst hnil
          change _ = total stored (path ++ rest)
          rw [hsplit]
  | _ =>
      rw [hpc] at hstep
      cases hstep

/-- **`size_approx` is exact when nothing is being added.**  A call that the producer makes no
step in returns the number of elements accepted and not yet received. -/
theorem sizeApprox_exact (size : UInt32) (r t : Handoff α) (n : Nat) (hrun : Run size r)
    (hcall : r.dequeuer = .countFrontBlock) (hquiet : r.enqueuer.idle = true)
    (hreach : Runs.Reaches (fun s (_ : Unit) => s.step .count) r t)
    (hret : t.dequeuer = .counted n) :
    t.accepted = r.accepted ∧ t.received = r.received ∧
      n = r.accepted.length - r.received.length := by
  obtain ⟨k, blocks, link, hlayout, path, rest, stored, queued, hinv⟩ := sound_of_run hrun
  have hall : Inv k blocks link t path rest stored queued ∧
      Counts t.queue (path ++ rest) stored t.dequeuer ∧ t.enqueuer = r.enqueuer ∧
      t.accepted = r.accepted ∧ t.received = r.received := by
    clear hret
    induction hreach with
    | refl => exact ⟨hinv, by rw [hcall]; trivial, rfl, rfl, rfl⟩
    | tail _ hnext ih =>
        obtain ⟨_, hstep⟩ := hnext
        obtain ⟨hinv', hcounts, hsame⟩ := ih
        obtain ⟨pc, hpc, rfl⟩ := Option.map_eq_some_iff.mp hstep
        exact ⟨hinv'.count hpc, hcounts.step hinv' hlayout hpc, hsame⟩
  obtain ⟨hinv', hcounts, henqueuer, haccepted, hreceived⟩ := hall
  refine ⟨haccepted, hreceived, ?_⟩
  rw [hret] at hcounts
  have htotal := hinv'.total_eq_occupancy (henqueuer ▸ hquiet)
  rw [haccepted, hreceived] at htotal
  exact Eq.trans hcounts htotal

/-- Two elements are in the queue. -/
theorem sizeApprox_exact_two : ∃ r t : Handoff Nat, t.dequeuer = .counted 2 ∧
    2 = r.accepted.length - r.received.length := by
  obtain ⟨r, hrun, hs⟩ := exists_run (start (3 : UInt32).toNat)
    [.tryEnqueue 7, .enqueue, .enqueue, .enqueue, .enqueue, .tryEnqueue 8, .enqueue, .enqueue,
      .enqueue, .enqueue, .sizeApprox]
    (fun s => (s.dequeuer, s.enqueuer.idle,
      (Runs.run (fun s (_ : Unit) => s.step .count) s [(), (), (), ()]).map Handoff.dequeuer))
    (.countFrontBlock, true, some (.counted 2)) (by decide)
  obtain ⟨hcall, hs'⟩ := Prod.mk.inj hs
  obtain ⟨hquiet, hcount⟩ := Prod.mk.inj hs'
  obtain ⟨t, ht, hret⟩ := Option.map_eq_some_iff.mp hcount
  exact ⟨r, t, hret,
    (sizeApprox_exact 3 r t 2 hrun hcall hquiet (Runs.reaches_of_run ht) hret).2.2⟩

/-! ## No waiting -/

/-- How many accesses a call of `try_enqueue` has left at most. -/
def enqueueLeft : EnqueuePc α → Nat
  | .loadTailBlock _ => 11
  | .loadTail .. => 10
  | .loadFront .. => 9
  | .loadNext .. => 8
  | .loadFrontBlock .. => 7
  | .loadTailBlockNext .. => 6
  | .loadNextFront .. => 5
  | .loadNextTail .. => 4
  | .constructNext .. => 3
  | .storeNextTail .. | .construct .. => 2
  | .storeTailBlock .. | .storeTail .. => 1
  | .ready | .returned .. | .broken => 0

/-- How many accesses a call of `try_dequeue` has left at most. -/
def dequeueLeft : DequeuePc α → Nat
  | .loadFrontBlock => 13
  | .loadFront .. => 12
  | .loadTail .. => 11
  | .loadTailBlock .. => 10
  | .reloadFrontBlock => 9
  | .reloadTail .. => 8
  | .reloadFront .. => 7
  | .loadNext .. => 6
  | .loadNextFront .. => 5
  | .loadNextTail .. => 4
  | .storeFrontBlock .. => 3
  | .take .. => 2
  | .storeFront .. => 1
  | _ => 0

theorem enqueueLeft_lt {q q' : ReaderWriterQueue α} {pc pc' : EnqueuePc α}
    (h : q.innerEnqueue pc = some (q', pc')) : enqueueLeft pc' < enqueueLeft pc := by
  cases pc <;> simp only [ReaderWriterQueue.innerEnqueue] at h <;> grind [enqueueLeft]

theorem dequeueLeft_lt {q q' : ReaderWriterQueue α} {pc pc' : DequeuePc α}
    (h : q.tryDequeue pc = some (q', pc')) : dequeueLeft pc' < dequeueLeft pc := by
  cases pc <;> simp only [ReaderWriterQueue.tryDequeue] at h <;> grind [dequeueLeft]

/-- A producer in a call can go on. -/
theorem isSome_innerEnqueue (q : ReaderWriterQueue α) {pc : EnqueuePc α}
    (hidle : pc.idle = false) (hbroken : pc ≠ .broken) : (q.innerEnqueue pc).isSome := by
  cases pc <;> simp only [ReaderWriterQueue.innerEnqueue] <;> try split
  all_goals first | rfl | exact absurd rfl hbroken | cases hidle

/-- A consumer in a call can go on. -/
theorem isSome_tryDequeue (q : ReaderWriterQueue α) {pc : DequeuePc α}
    (hidle : pc.idle = false) (hbroken : pc ≠ .broken) :
    (q.tryDequeue pc).isSome ∨ (q.sizeApprox pc).isSome := by
  cases pc <;> simp only [ReaderWriterQueue.tryDequeue, ReaderWriterQueue.sizeApprox] <;> try split
  all_goals first | exact .inl rfl | exact .inr rfl | exact absurd rfl hbroken | cases hidle

/-- What an action takes of the accesses left to the producer's call. -/
theorem enqueueLeft_step {a : HandoffAction α} (hstep : s.step a = some t)
    (hcall : ∀ x, a ≠ .tryEnqueue x) :
    a.isEnqueue.toNat + enqueueLeft t.enqueuer ≤ enqueueLeft s.enqueuer := by
  cases a with
  | tryEnqueue x => exact absurd rfl (hcall x)
  | enqueue =>
      obtain ⟨⟨q', pc'⟩, hr, rfl⟩ := Option.map_eq_some_iff.mp hstep
      have hlt := enqueueLeft_lt hr
      simp only [HandoffAction.isEnqueue, Bool.toNat_true]
      omega
  | tryDequeue =>
      simp only [Handoff.step] at hstep
      split at hstep <;> cases hstep
      simp [HandoffAction.isEnqueue]
  | sizeApprox =>
      simp only [Handoff.step] at hstep
      split at hstep <;> cases hstep
      simp [HandoffAction.isEnqueue]
  | dequeue =>
      obtain ⟨r, _, rfl⟩ := Option.map_eq_some_iff.mp hstep
      simp [HandoffAction.isEnqueue]
  | count =>
      obtain ⟨r, _, rfl⟩ := Option.map_eq_some_iff.mp hstep
      simp [HandoffAction.isEnqueue]

/-- What an action takes of the accesses left to the consumer's call. -/
theorem dequeueLeft_step {a : HandoffAction α} (hstep : s.step a = some t)
    (hcall : a ≠ .tryDequeue) :
    a.isDequeue.toNat + dequeueLeft t.dequeuer ≤ dequeueLeft s.dequeuer := by
  cases a with
  | tryDequeue => exact absurd rfl hcall
  | dequeue =>
      obtain ⟨⟨q', pc'⟩, hr, rfl⟩ := Option.map_eq_some_iff.mp hstep
      have hlt := dequeueLeft_lt hr
      simp only [HandoffAction.isDequeue, Bool.toNat_true]
      omega
  | tryEnqueue x =>
      simp only [Handoff.step] at hstep
      split at hstep <;> cases hstep
      simp [HandoffAction.isDequeue]
  | sizeApprox =>
      simp only [Handoff.step] at hstep
      split at hstep <;> cases hstep
      exact Nat.zero_le _
  | enqueue =>
      obtain ⟨r, _, rfl⟩ := Option.map_eq_some_iff.mp hstep
      simp [HandoffAction.isDequeue]
  | count =>
      obtain ⟨pc, hpc, rfl⟩ := Option.map_eq_some_iff.mp hstep
      have hzero : dequeueLeft pc = 0 := by
        cases hd : s.dequeuer <;> rw [hd] at hpc <;>
          simp only [ReaderWriterQueue.sizeApprox] at hpc <;> grind [dequeueLeft]
      simp [hzero, HandoffAction.isDequeue]

/-- A run takes from the accesses left what each of its actions takes. -/
theorem countP_le (mine : HandoffAction α → Bool) (call : HandoffAction α → Prop)
    {left : Handoff α → Nat}
    (hleft : ∀ s a t, Handoff.step s a = some t → ¬call a → (mine a).toNat + left t ≤ left s)
    {actions : List (HandoffAction α)} (hrun : Runs.run step s actions = some t)
    (hcall : ∀ a ∈ actions, ¬call a) : actions.countP mine + left t ≤ left s := by
  induction actions generalizing s with
  | nil =>
      cases hrun
      simp
  | cons a actions ih =>
      obtain ⟨u, hu, hrest⟩ := Option.bind_eq_some_iff.mp hrun
      have hone := hleft s a u hu (hcall a (by simp))
      have hmore := ih hrest fun b hb => hcall b (List.mem_cons_of_mem a hb)
      rw [List.countP_cons]
      cases hmine : mine a <;> rw [hmine] at hone <;> simp at hone ⊢ <;> omega

/-- **No call waits.**  Wherever the other thread stands, a thread in a call can go on, and a
call of `try_enqueue` is over after 11 accesses of its own, one of `try_dequeue` after 13. -/
theorem wait_free (size : UInt32) (s : Handoff α) (hrun : Run size s) :
    (s.enqueuer.idle = false → (s.step .enqueue).isSome) ∧
      (s.dequeuer.idle = false → (s.step .dequeue).isSome ∨ (s.step .count).isSome) ∧
      ∀ actions t, Runs.run step s actions = some t →
        ((∀ x, .tryEnqueue x ∉ actions) → actions.countP HandoffAction.isEnqueue ≤ 11) ∧
        (.tryDequeue ∉ actions → actions.countP HandoffAction.isDequeue ≤ 13) := by
  obtain ⟨henqueuer, hdequeuer⟩ := not_broken_of_run hrun
  have henqueue : enqueueLeft s.enqueuer ≤ 11 := by
    cases s.enqueuer <;> simp [enqueueLeft]
  have hdequeue : dequeueLeft s.dequeuer ≤ 13 := by
    cases s.dequeuer <;> simp [dequeueLeft]
  refine ⟨fun hidle => ?_, fun hidle => ?_, fun actions t hactions => ⟨fun hcall => ?_,
    fun hcall => ?_⟩⟩
  · simpa [Handoff.step] using isSome_innerEnqueue s.queue hidle henqueuer
  · simpa [Handoff.step] using isSome_tryDequeue s.queue hidle hdequeuer
  · have hle := countP_le HandoffAction.isEnqueue (fun a => ∃ x, a = .tryEnqueue x)
      (fun s a t hstep hnot => enqueueLeft_step hstep fun x hx => hnot ⟨x, hx⟩) hactions
      (by
        rintro a ha ⟨x, rfl⟩
        exact hcall x ha)
    omega
  · have hle := countP_le HandoffAction.isDequeue (fun a => a = .tryDequeue)
      (fun s a t hstep hnot => dequeueLeft_step hstep hnot) hactions
      (by
        rintro a ha rfl
        exact hcall ha)
    omega

/-- A producer that has just called. -/
theorem wait_free_called : ∃ s : Handoff Nat, s.enqueuer = .loadTailBlock 7 ∧
    (s.step .enqueue).isSome := by
  obtain ⟨s, hrun, hs⟩ := exists_run (start (1 : UInt32).toNat) [.tryEnqueue 7]
    Handoff.enqueuer (.loadTailBlock 7) (by decide)
  exact ⟨s, hs, (wait_free 1 s hrun).1 (by rw [hs]; rfl)⟩

end Handoff

end Debe
