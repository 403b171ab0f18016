import Debe.ReaderWriterQueue
import Mathlib.Data.List.Chain
import Mathlib.Data.List.Nodup

/-!
# What holds of the queue between any two accesses

The ring is cut in two: `path`, the blocks from the front block to the tail block, and `rest`,
the blocks from there round to the front block again.  The queue is what the blocks of `path`
hold, one after the other.  The blocks of `rest` are empty, all blocks strictly inside `path`
are full, and every block of `path` after the first holds something, so that neither thread
meets the other in a block it does not expect it in.

Each thread stands at some access with values read earlier.  The producer's are still good
because the consumer only ever makes room, and the consumer's because the producer only ever
adds: `ByProducer` and `ByConsumer` say what a step of one thread leaves alone, and the
invariant of each thread's own position is kept by any step of the other.
-/

namespace Debe

open CircularBuffer

variable {α : Type*}

/-- The element that stands in a block's slot `tail` before `tail` has moved past it. -/
def EnqueuePc.constructed : EnqueuePc α → Nat → List (Option α)
  | .storeTail x a _, b | .storeNextTail x a _, b => if b = a then [some x] else []
  | _, _ => []

/-- The element of a block that `tailBlock` has not moved on to. -/
def EnqueuePc.published : EnqueuePc α → Nat → List (Option α)
  | .storeTailBlock x a, b => if b = a then [some x] else []
  | _, _ => []

/-- A block of `2 ^ k` slots holds `l`, and behind it the elements `e` that are not yet to be
seen. -/
structure BlockHolds (k : Nat) (b : Block α) (l e : List (Option α)) : Prop where
  mask : b.sizeMask = 2 ^ k - 1
  front_lt : b.front < 2 ^ k
  tail_lt : b.tail < 2 ^ k
  gap_eq : gap (2 ^ k) b.front b.tail = l.length
  holds : Holds (2 ^ k) b.data b.front (l ++ e)

namespace BlockHolds

variable {k : Nat} {b : Block α} {l e : List (Option α)} {o : Option α} {x : α}

theorem length_lt (h : BlockHolds k b l e) : l.length < 2 ^ k :=
  h.gap_eq ▸ gap_lt h.front_lt h.tail_lt

theorem empty_iff (h : BlockHolds k b l e) : b.front = b.tail ↔ l = [] := by
  rw [← gap_eq_zero h.front_lt, h.gap_eq, List.length_eq_zero_iff]

theorem succ_tail (h : BlockHolds k b l e) :
    (b.tail + 1) &&& b.sizeMask = next (2 ^ k) b.tail := by
  rw [h.mask, succ_and_mask h.tail_lt]

theorem succ_front (h : BlockHolds k b l e) :
    (b.front + 1) &&& b.sizeMask = next (2 ^ k) b.front := by
  rw [h.mask, succ_and_mask h.front_lt]

/-- The block is full when `tail` may not move on. -/
theorem full_iff (h : BlockHolds k b l e) :
    next (2 ^ k) b.tail = b.front ↔ l.length + 1 = 2 ^ k := by
  rw [next_eq_iff h.front_lt h.tail_lt, h.gap_eq]

theorem slot_tail (h : BlockHolds k b l []) : b.data b.tail = none := by
  have hholds := h.holds
  rw [List.append_nil] at hholds
  exact hholds.behind h.tail_lt h.gap_eq.ge

theorem construct (h : BlockHolds k b l []) :
    BlockHolds k { b with data := Function.update b.data b.tail (some x) } l [some x] where
  mask := h.mask
  front_lt := h.front_lt
  tail_lt := h.tail_lt
  gap_eq := h.gap_eq
  holds := by
    have hholds := h.holds
    rw [List.append_nil] at hholds
    exact hholds.construct h.front_lt h.tail_lt h.gap_eq

theorem publish (h : BlockHolds k b l [some x]) (hroom : l.length + 1 < 2 ^ k) :
    BlockHolds k { b with tail := next (2 ^ k) b.tail } (l ++ [some x]) [] where
  mask := h.mask
  front_lt := h.front_lt
  tail_lt := next_lt h.tail_lt
  gap_eq := by
    have hgap := h.gap_eq
    rw [gap_next_right h.front_lt (by omega), hgap, List.length_append, List.length_singleton]
  holds := by
    have hholds := h.holds
    rwa [List.append_nil]

theorem slot_front (h : BlockHolds k b (o :: l) e) : b.data b.front = o :=
  h.holds.head h.front_lt

theorem destroy (h : BlockHolds k b (o :: l) e) :
    BlockHolds k { b with data := Function.update b.data b.front none } (none :: l) e where
  mask := h.mask
  front_lt := h.front_lt
  tail_lt := h.tail_lt
  gap_eq := h.gap_eq
  holds := h.holds.destroy h.front_lt

theorem release (h : BlockHolds k b (none :: l) e) (he : l.length + e.length < 2 ^ k) :
    BlockHolds k { b with front := next (2 ^ k) b.front } l e where
  mask := h.mask
  front_lt := next_lt h.front_lt
  tail_lt := h.tail_lt
  gap_eq := by
    have hgap := h.gap_eq
    have hne : b.front ≠ b.tail := by
      intro heq
      exact absurd (h.empty_iff.mp heq) (by simp)
    have hleft := gap_next_left h.front_lt h.tail_lt hne
    rw [hgap, List.length_cons] at hleft
    exact Nat.succ_injective hleft
  holds := Holds.release h.holds h.front_lt (by rwa [List.length_append])

end BlockHolds

/-- The ring of blocks.  `link` is the block after a block, and `stored` what a block holds. -/
structure Ring (k : Nat) (link : Nat → Nat) (q : ReaderWriterQueue α) (pc : EnqueuePc α)
    (path rest : List Nat) (stored : Nat → List (Option α)) : Prop where
  linked : ∀ a ∈ path ++ rest, (q.block a).next = link a
  chain : (path ++ rest ++ [q.frontBlock]).IsChain fun a b => link a = b
  nodup : (path ++ rest).Nodup
  front : path.head? = some q.frontBlock
  tail : path.getLast? = some q.tailBlock
  stores : ∀ a ∈ path ++ rest, BlockHolds k (q.block a) (stored a) (pc.constructed a)
  full : ∀ a ∈ path, a ≠ q.frontBlock → a ≠ q.tailBlock → (stored a).length + 1 = 2 ^ k
  filled : ∀ a ∈ path, a ≠ q.frontBlock → stored a ≠ []
  free : ∀ a ∈ rest, stored a = pc.published a
  /-- The consumer's copy of `tail` is not ahead of it. -/
  localTail_lt : (q.block q.frontBlock).localTail < 2 ^ k
  localTail : gap (2 ^ k) (q.block q.frontBlock).front (q.block q.frontBlock).localTail ≤
    (stored q.frontBlock).length
  /-- The producer's copy of `front` is not ahead of it. -/
  localFront_lt : (q.block q.tailBlock).localFront < 2 ^ k
  localFront : gap (2 ^ k) (q.block q.tailBlock).localFront (q.block q.tailBlock).front +
      (stored q.tailBlock).length =
    gap (2 ^ k) (q.block q.tailBlock).localFront (q.block q.tailBlock).tail

/-- The tail block is full if the consumer is not in it. -/
def TailFull (k : Nat) (q : ReaderWriterQueue α) (stored : Nat → List (Option α)) : Prop :=
  q.tailBlock ≠ q.frontBlock → (stored q.tailBlock).length + 1 = 2 ^ k

/-- What the producer knows where it stands. -/
def EnqueueAt (k : Nat) (link : Nat → Nat) (q : ReaderWriterQueue α) (rest : List Nat)
    (stored : Nat → List (Option α)) : EnqueuePc α → Prop
  | .loadTail _ a => a = q.tailBlock
  | .loadFront _ a t t' => a = q.tailBlock ∧ t = (q.block a).tail ∧ t' = next (2 ^ k) t
  | .construct _ a t t' => a = q.tailBlock ∧ t = (q.block a).tail ∧ t' = next (2 ^ k) t ∧
      gap (2 ^ k) (q.block a).localFront t + 1 < 2 ^ k
  | .storeTail _ a t' => a = q.tailBlock ∧ t' = next (2 ^ k) (q.block a).tail ∧
      gap (2 ^ k) (q.block a).localFront (q.block a).tail + 1 < 2 ^ k
  | .loadNext _ a => a = q.tailBlock ∧ TailFull k q stored
  | .loadFrontBlock _ a b => a = q.tailBlock ∧ b = link a ∧ TailFull k q stored
  | .loadTailBlockNext _ a => a = q.tailBlock ∧ rest ≠ [] ∧ TailFull k q stored
  | .loadNextFront _ b => rest.head? = some b ∧ TailFull k q stored
  | .loadNextTail _ b f => rest.head? = some b ∧ f = (q.block b).front ∧ TailFull k q stored
  | .constructNext _ b t | .storeNextTail _ b t => rest.head? = some b ∧
      t = (q.block b).tail ∧ (q.block b).localFront = (q.block b).front ∧ TailFull k q stored
  | .storeTailBlock _ b => rest.head? = some b ∧
      (q.block b).localFront = (q.block b).front ∧ TailFull k q stored
  | .broken => False
  | .ready | .loadTailBlock _ | .returned _ _ => True

/-- What the consumer knows where it stands. -/
def DequeueAt (k : Nat) (link : Nat → Nat) (q : ReaderWriterQueue α)
    (stored : Nat → List (Option α)) : DequeuePc α → Prop
  | .loadFront a | .loadTailBlock a => a = q.frontBlock
  | .loadTail a f => a = q.frontBlock ∧ f = (q.block a).front
  | .reloadFrontBlock => q.frontBlock ≠ q.tailBlock
  | .reloadTail a => a = q.frontBlock ∧ q.frontBlock ≠ q.tailBlock
  | .reloadFront a t => a = q.frontBlock ∧ q.frontBlock ≠ q.tailBlock ∧
      t = (q.block a).tail ∧ t = (q.block a).localTail
  | .loadNext a => a = q.frontBlock ∧ q.frontBlock ≠ q.tailBlock ∧ stored a = []
  | .loadNextFront b => b = link q.frontBlock ∧ q.frontBlock ≠ q.tailBlock ∧
      stored q.frontBlock = []
  | .loadNextTail b f => b = link q.frontBlock ∧ q.frontBlock ≠ q.tailBlock ∧
      stored q.frontBlock = [] ∧ f = (q.block b).front
  | .storeFrontBlock b f => b = link q.frontBlock ∧ q.frontBlock ≠ q.tailBlock ∧
      stored q.frontBlock = [] ∧ f = (q.block b).front ∧ f ≠ (q.block b).localTail ∧
      (q.block b).localTail < 2 ^ k ∧ gap (2 ^ k) f (q.block b).localTail ≤ (stored b).length
  | .take a f => a = q.frontBlock ∧ f = (q.block a).front ∧ f ≠ (q.block a).localTail ∧
      stored a ≠ []
  | .storeFront a f _ => a = q.frontBlock ∧ f = (q.block a).front ∧
      f ≠ (q.block a).localTail ∧ (stored a).head? = some none
  | .broken => False
  | _ => True

/-- What the blocks of the path hold, against the elements in the queue: the same, but that the
element being received is no longer in its slot. -/
def Content : DequeuePc α → List α → List (Option α) → Prop
  | .storeFront _ _ x, queued, l => ∃ rest, queued = x :: rest ∧ l = none :: rest.map some
  | _, queued, l => l = queued.map some

/-! ## What a step of one thread leaves to the other -/

/-- The producer only adds, and only to blocks the consumer is not waiting in front of. -/
structure ByProducer (q q' : ReaderWriterQueue α) (stored stored' : Nat → List (Option α)) :
    Prop where
  frontBlock : q'.frontBlock = q.frontBlock
  front : ∀ a, (q'.block a).front = (q.block a).front
  localTail : ∀ a, (q'.block a).localTail = (q.block a).localTail
  grows : ∀ a, stored a <+: stored' a
  tailBlock : q.frontBlock ≠ q.tailBlock → q.frontBlock ≠ q'.tailBlock
  settled : q.frontBlock ≠ q.tailBlock → stored' q.frontBlock = stored q.frontBlock ∧
    (q'.block q.frontBlock).tail = (q.block q.frontBlock).tail

/-- The consumer only makes room, and only in the front block. -/
structure ByConsumer (q q' : ReaderWriterQueue α) (rest rest' : List Nat)
    (stored stored' : Nat → List (Option α)) : Prop where
  tailBlock : q'.tailBlock = q.tailBlock
  frontBlock : q.tailBlock ≠ q'.frontBlock → q.tailBlock ≠ q.frontBlock
  tail : ∀ a, (q'.block a).tail = (q.block a).tail
  localFront : ∀ a, (q'.block a).localFront = (q.block a).localFront
  front : ∀ a, a ≠ q.frontBlock → (q'.block a).front = (q.block a).front
  kept : ∀ a, a ≠ q.frontBlock → stored' a = stored a
  shrinks : ∀ a, (stored' a).length ≤ (stored a).length
  rest : rest <+: rest'

variable {k : Nat} {link : Nat → Nat} {q q' : ReaderWriterQueue α} {rest rest' : List Nat}
  {stored stored' : Nat → List (Option α)}

theorem TailFull.by_consumer (h : TailFull k q stored)
    (hframe : ByConsumer q q' rest rest' stored stored') : TailFull k q' stored' := by
  intro hne
  rw [hframe.tailBlock] at hne ⊢
  have hne' := hframe.frontBlock hne
  rw [hframe.kept _ hne']
  exact h hne'

theorem head_of_append {l l' : List Nat} {b : Nat} (h : l.head? = some b) (hl : l <+: l') :
    l'.head? = some b := by
  obtain ⟨t, rfl⟩ := hl
  rw [List.head?_append, h]
  rfl

/-- The producer's position stays good under the consumer's steps. -/
theorem EnqueueAt.by_consumer {pc : EnqueuePc α} (h : EnqueueAt k link q rest stored pc)
    (hframe : ByConsumer q q' rest rest' stored stored') (hfront : q.frontBlock ∉ rest) :
    EnqueueAt k link q' rest' stored' pc := by
  have hhead {b : Nat} (hb : rest.head? = some b) :
      rest'.head? = some b ∧ (q'.block b).front = (q.block b).front :=
    ⟨head_of_append hb hframe.rest, hframe.front b (by
      rintro rfl
      exact hfront (List.mem_of_mem_head? hb))⟩
  cases pc with
  | ready => trivial
  | loadTailBlock x => trivial
  | returned x result => trivial
  | broken => exact h
  | loadTail x a => exact h.trans hframe.tailBlock.symm
  | loadFront x a t t' =>
      obtain ⟨ha, ht, ht'⟩ := h
      exact ⟨ha.trans hframe.tailBlock.symm, ht.trans (hframe.tail a).symm, ht'⟩
  | construct x a t t' =>
      obtain ⟨ha, ht, ht', hlt⟩ := h
      exact ⟨ha.trans hframe.tailBlock.symm, ht.trans (hframe.tail a).symm, ht',
        by rwa [hframe.localFront a]⟩
  | storeTail x a t' =>
      obtain ⟨ha, ht', hlt⟩ := h
      exact ⟨ha.trans hframe.tailBlock.symm, by rw [hframe.tail a, ht'],
        by rwa [hframe.localFront a, hframe.tail a]⟩
  | loadNext x a =>
      obtain ⟨ha, hfull⟩ := h
      exact ⟨ha.trans hframe.tailBlock.symm, hfull.by_consumer hframe⟩
  | loadFrontBlock x a b =>
      obtain ⟨ha, hb, hfull⟩ := h
      exact ⟨ha.trans hframe.tailBlock.symm, hb, hfull.by_consumer hframe⟩
  | loadTailBlockNext x a =>
      obtain ⟨ha, hrest, hfull⟩ := h
      refine ⟨ha.trans hframe.tailBlock.symm, ?_, hfull.by_consumer hframe⟩
      rintro rfl
      exact hrest (List.prefix_nil.mp hframe.rest)
  | loadNextFront x b =>
      obtain ⟨hb, hfull⟩ := h
      exact ⟨(hhead hb).1, hfull.by_consumer hframe⟩
  | loadNextTail x b f =>
      obtain ⟨hb, hf, hfull⟩ := h
      exact ⟨(hhead hb).1, hf.trans (hhead hb).2.symm, hfull.by_consumer hframe⟩
  | constructNext x b t =>
      obtain ⟨hb, ht, hlocal, hfull⟩ := h
      exact ⟨(hhead hb).1, ht.trans (hframe.tail b).symm,
        by rw [hframe.localFront b, (hhead hb).2, hlocal], hfull.by_consumer hframe⟩
  | storeNextTail x b t =>
      obtain ⟨hb, ht, hlocal, hfull⟩ := h
      exact ⟨(hhead hb).1, ht.trans (hframe.tail b).symm,
        by rw [hframe.localFront b, (hhead hb).2, hlocal], hfull.by_consumer hframe⟩
  | storeTailBlock x b =>
      obtain ⟨hb, hlocal, hfull⟩ := h
      exact ⟨(hhead hb).1, by rw [hframe.localFront b, (hhead hb).2, hlocal],
        hfull.by_consumer hframe⟩

/-- The consumer's position stays good under the producer's steps. -/
theorem DequeueAt.by_producer {pc : DequeuePc α} (h : DequeueAt k link q stored pc)
    (hframe : ByProducer q q' stored stored') : DequeueAt k link q' stored' pc := by
  have hfront := hframe.frontBlock
  have hne : q.frontBlock ≠ q.tailBlock → q'.frontBlock ≠ q'.tailBlock := by
    intro hne
    rw [hfront]
    exact hframe.tailBlock hne
  have hempty : q.frontBlock ≠ q.tailBlock → stored q.frontBlock = [] →
      stored' q'.frontBlock = [] := by
    intro hne hnil
    rw [hfront, (hframe.settled hne).1, hnil]
  cases pc with
  | ready => trivial
  | loadFrontBlock => trivial
  | dequeued result => trivial
  | countFrontBlock => trivial
  | countFront a b result => trivial
  | countTail a b f result => trivial
  | countNext a b result => trivial
  | counted result => trivial
  | broken => exact h
  | loadFront a => exact h.trans hfront.symm
  | loadTailBlock a => exact h.trans hfront.symm
  | loadTail a f =>
      obtain ⟨ha, hf⟩ := h
      exact ⟨ha.trans hfront.symm, hf.trans (hframe.front a).symm⟩
  | reloadFrontBlock => exact hne h
  | reloadTail a =>
      obtain ⟨ha, hne'⟩ := h
      exact ⟨ha.trans hfront.symm, hne hne'⟩
  | reloadFront a t =>
      obtain ⟨rfl, hne', ht, hlocal⟩ := h
      exact ⟨hfront.symm, hne hne', by rw [(hframe.settled hne').2, ht],
        by rw [hframe.localTail, hlocal]⟩
  | loadNext a =>
      obtain ⟨rfl, hne', hnil⟩ := h
      exact ⟨hfront.symm, hne hne', by rw [(hframe.settled hne').1, hnil]⟩
  | loadNextFront b =>
      obtain ⟨hb, hne', hnil⟩ := h
      exact ⟨by rw [hfront, hb], hne hne', hempty hne' hnil⟩
  | loadNextTail b f =>
      obtain ⟨hb, hne', hnil, hf⟩ := h
      exact ⟨by rw [hfront, hb], hne hne', hempty hne' hnil, by rw [hframe.front, hf]⟩
  | storeFrontBlock b f =>
      obtain ⟨hb, hne', hnil, hf, hlocal, hlt, hgap⟩ := h
      refine ⟨by rw [hfront, hb], hne hne', hempty hne' hnil, by rw [hframe.front, hf], ?_, ?_, ?_⟩
      · rwa [hframe.localTail]
      · rwa [hframe.localTail]
      · rw [hframe.localTail]
        exact hgap.trans (hframe.grows b).length_le
  | take a f =>
      obtain ⟨ha, hf, hlocal, hnil⟩ := h
      refine ⟨ha.trans hfront.symm, hf.trans (hframe.front a).symm, ?_, ?_⟩
      · rwa [hframe.localTail]
      · intro hnil'
        have hpre := hframe.grows a
        rw [hnil'] at hpre
        exact hnil (List.prefix_nil.mp hpre)
  | storeFront a f x =>
      obtain ⟨ha, hf, hlocal, hhead⟩ := h
      refine ⟨ha.trans hfront.symm, hf.trans (hframe.front a).symm, ?_, ?_⟩
      · rwa [hframe.localTail]
      · obtain ⟨t, ht⟩ := hframe.grows a
        rw [← ht, List.head?_append, hhead]
        rfl

/-! ## The ring under each access -/

namespace Ring

variable {pc pc' : EnqueuePc α} {path : List Nat} {x : α} {a b f : Nat}

theorem front_mem (h : Ring k link q pc path rest stored) : q.frontBlock ∈ path :=
  List.mem_of_mem_head? h.front

theorem tail_mem (h : Ring k link q pc path rest stored) : q.tailBlock ∈ path :=
  List.mem_of_getLast? h.tail

theorem front_not_mem (h : Ring k link q pc path rest stored) : q.frontBlock ∉ rest :=
  fun hrest => List.disjoint_of_nodup_append h.nodup h.front_mem hrest

theorem tail_not_mem (h : Ring k link q pc path rest stored) : q.tailBlock ∉ rest :=
  fun hrest => List.disjoint_of_nodup_append h.nodup h.tail_mem hrest

theorem at_front (h : Ring k link q pc path rest stored) : BlockHolds k (q.block q.frontBlock)
    (stored q.frontBlock) (pc.constructed q.frontBlock) :=
  h.stores _ (List.mem_append_left rest h.front_mem)

theorem at_tail (h : Ring k link q pc path rest stored) : BlockHolds k (q.block q.tailBlock)
    (stored q.tailBlock) (pc.constructed q.tailBlock) :=
  h.stores _ (List.mem_append_left rest h.tail_mem)

/-- Behind the tail block comes the first free block, or else the front block. -/
theorem link_tail (h : Ring k link q pc path rest stored) :
    (rest ++ [q.frontBlock]).head? = some (link q.tailBlock) := by
  obtain ⟨p, hp⟩ := List.getLast?_eq_some_iff.mp h.tail
  have hchain := h.chain
  rw [hp, List.append_assoc, List.append_assoc] at hchain
  have hright := (List.isChain_append.mp hchain).2.1
  cases hrest : rest ++ [q.frontBlock] with
  | nil => simp at hrest
  | cons b l =>
      rw [hrest] at hright
      exact congrArg some (List.isChain_cons_cons.mp hright).1.symm

/-- There is a free block behind the tail block just when it is not the front block that comes
there. -/
theorem link_tail_ne_iff (h : Ring k link q pc path rest stored) :
    link q.tailBlock ≠ q.frontBlock ↔ rest ≠ [] := by
  have hlink := h.link_tail
  cases hrest : rest with
  | nil =>
      rw [hrest] at hlink
      simpa using hlink.symm
  | cons b l =>
      rw [hrest] at hlink
      have hb : b = link q.tailBlock := by simpa using hlink
      have hmem := h.front_not_mem
      rw [hrest, hb] at hmem
      simp only [ne_eq, reduceCtorEq, not_false_eq_true, iff_true]
      intro heq
      exact hmem (by simp [heq])

/-- A path of more than one block. -/
theorem path_cons (h : Ring k link q pc path rest stored) (hne : q.frontBlock ≠ q.tailBlock) :
    ∃ p, path = q.frontBlock :: link q.frontBlock :: p := by
  have hfront := h.front
  have htail := h.tail
  have hchain := h.chain
  match path with
  | [] => simp at hfront
  | [c] =>
      simp only [List.head?_cons, Option.some.injEq, List.getLast?_singleton] at hfront htail
      exact absurd (hfront.symm.trans htail) hne
  | c :: d :: p =>
      simp only [List.head?_cons, Option.some.injEq] at hfront
      subst hfront
      simp only [List.cons_append, List.isChain_cons_cons] at hchain
      exact ⟨p, by rw [hchain.1]⟩

/-- A step that changes no block but in the two copies, and not those. -/
theorem withPc (h : Ring k link q pc path rest stored)
    (hc : ∀ a, pc'.constructed a = pc.constructed a)
    (hp : ∀ a, pc'.published a = pc.published a) : Ring k link q pc' path rest stored where
  linked := h.linked
  chain := h.chain
  nodup := h.nodup
  front := h.front
  tail := h.tail
  stores := fun a ha => (hc a).symm ▸ h.stores a ha
  full := h.full
  filled := h.filled
  free := fun a ha => (h.free a ha).trans (hp a).symm
  localTail_lt := h.localTail_lt
  localTail := h.localTail
  localFront_lt := h.localFront_lt
  localFront := h.localFront

/-- A step that changes one block, and not its place in the ring. -/
theorem modify (h : Ring k link q pc path rest stored) (pc' : EnqueuePc α)
    (ha : a ∈ path ++ rest) {g : Block α → Block α} (l : List (Option α))
    (hnext : (g (q.block a)).next = (q.block a).next)
    (hc : ∀ b, b ≠ a → pc'.constructed b = pc.constructed b)
    (hp : ∀ b, b ≠ a → pc'.published b = pc.published b)
    (hstores : BlockHolds k (g (q.block a)) l (pc'.constructed a))
    (hfull : a ∈ path → a ≠ q.frontBlock → a ≠ q.tailBlock → l.length + 1 = 2 ^ k)
    (hfilled : a ∈ path → a ≠ q.frontBlock → l ≠ [])
    (hfree : a ∈ rest → l = pc'.published a)
    (hlocalTail : a = q.frontBlock → (g (q.block a)).localTail < 2 ^ k ∧
      gap (2 ^ k) (g (q.block a)).front (g (q.block a)).localTail ≤ l.length)
    (hlocalFront : a = q.tailBlock → (g (q.block a)).localFront < 2 ^ k ∧
      gap (2 ^ k) (g (q.block a)).localFront (g (q.block a)).front + l.length =
        gap (2 ^ k) (g (q.block a)).localFront (g (q.block a)).tail) :
    Ring k link (q.modify a g) pc' path rest (Function.update stored a l) where
  linked := by
    intro b hb
    rw [ReaderWriterQueue.modify_block_field Block.next q a hnext]
    exact h.linked b hb
  chain := h.chain
  nodup := h.nodup
  front := h.front
  tail := h.tail
  stores := by
    intro b hb
    by_cases heq : b = a
    · subst heq
      simpa using hstores
    · rw [ReaderWriterQueue.modify_block_ne _ _ heq, Function.update_of_ne heq, hc b heq]
      exact h.stores b hb
  full := by
    intro b hb hf ht
    by_cases heq : b = a
    · subst heq
      simpa using hfull hb hf ht
    · rw [Function.update_of_ne heq]
      exact h.full b hb hf ht
  filled := by
    intro b hb hf
    by_cases heq : b = a
    · subst heq
      simpa using hfilled hb hf
    · rw [Function.update_of_ne heq]
      exact h.filled b hb hf
  free := by
    intro b hb
    by_cases heq : b = a
    · subst heq
      simpa using hfree hb
    · rw [Function.update_of_ne heq, hp b heq]
      exact h.free b hb
  localTail_lt := by
    rw [ReaderWriterQueue.modify_frontBlock]
    by_cases heq : q.frontBlock = a
    · rw [heq, ReaderWriterQueue.modify_block_self]
      exact (hlocalTail heq.symm).1
    · rw [ReaderWriterQueue.modify_block_ne _ _ heq]
      exact h.localTail_lt
  localTail := by
    rw [ReaderWriterQueue.modify_frontBlock]
    by_cases heq : q.frontBlock = a
    · rw [heq, ReaderWriterQueue.modify_block_self, Function.update_self]
      exact (hlocalTail heq.symm).2
    · rw [ReaderWriterQueue.modify_block_ne _ _ heq, Function.update_of_ne heq]
      exact h.localTail
  localFront_lt := by
    rw [ReaderWriterQueue.modify_tailBlock]
    by_cases heq : q.tailBlock = a
    · rw [heq, ReaderWriterQueue.modify_block_self]
      exact (hlocalFront heq.symm).1
    · rw [ReaderWriterQueue.modify_block_ne _ _ heq]
      exact h.localFront_lt
  localFront := by
    rw [ReaderWriterQueue.modify_tailBlock]
    by_cases heq : q.tailBlock = a
    · rw [heq, ReaderWriterQueue.modify_block_self, Function.update_self]
      exact (hlocalFront heq.symm).2
    · rw [ReaderWriterQueue.modify_block_ne _ _ heq, Function.update_of_ne heq]
      exact h.localFront

/-- The producer takes a new copy of `front`. -/
theorem setLocalFront (h : Ring k link q pc path rest stored) (ha : a ∈ path ++ rest)
    (hf : f = (q.block a).front) (hc : ∀ a, pc'.constructed a = pc.constructed a)
    (hp : ∀ a, pc'.published a = pc.published a) :
    Ring k link (q.modify a fun b => { b with localFront := f }) pc' path rest stored := by
  have hs := h.stores a ha
  have hnew := h.modify pc' (g := fun b => { b with localFront := f }) ha (stored a) rfl
    (fun b _ => hc b) (fun b _ => hp b)
    ⟨hs.mask, hs.front_lt, hs.tail_lt, hs.gap_eq, (hc a).symm ▸ hs.holds⟩
    (h.full a) (h.filled a) (fun hr => (h.free a hr).trans (hp a).symm)
    (fun heq => heq ▸ ⟨h.localTail_lt, h.localTail⟩)
    (fun _ => ⟨hf ▸ hs.front_lt, by simp only [hf, gap_self, Nat.zero_add, hs.gap_eq]⟩)
  rwa [Function.update_eq_self] at hnew

/-- The consumer takes a new copy of `tail`. -/
theorem setLocalTail (h : Ring k link q pc path rest stored) (ha : a ∈ path ++ rest) :
    Ring k link (q.modify a fun b => { b with localTail := (q.block a).tail }) pc path rest
      stored := by
  have hs := h.stores a ha
  have hnew := h.modify pc (g := fun b => { b with localTail := (q.block a).tail }) ha
    (stored a) rfl (fun _ _ => rfl) (fun _ _ => rfl)
    ⟨hs.mask, hs.front_lt, hs.tail_lt, hs.gap_eq, hs.holds⟩ (h.full a) (h.filled a) (h.free a)
    (fun _ => ⟨hs.tail_lt, hs.gap_eq.le⟩) (fun heq => heq ▸ ⟨h.localFront_lt, h.localFront⟩)
  rwa [Function.update_eq_self] at hnew

/-- The producer constructs an element behind those of a block. -/
theorem construct (h : Ring k link q pc path rest stored) (ha : a ∈ path ++ rest)
    (hc : ∀ b, pc.constructed b = [])
    (hc' : ∀ b, pc'.constructed b = if b = a then [some x] else [])
    (hp : ∀ b, pc'.published b = pc.published b) (hf : f = (q.block a).tail) :
    Ring k link (q.modify a fun b => { b with data := Function.update b.data f (some x) })
      pc' path rest stored := by
  subst hf
  have hs := h.stores a ha
  rw [hc a] at hs
  have hnew := h.modify pc'
    (g := fun b => { b with data := Function.update b.data (q.block a).tail (some x) }) ha
    (stored a) rfl (fun b hb => by rw [hc' b, hc b, if_neg hb]) (fun b _ => hp b)
    (by rw [hc' a, if_pos rfl]; exact hs.construct) (h.full a) (h.filled a)
    (fun hr => (h.free a hr).trans (hp a).symm)
    (fun heq => heq ▸ ⟨h.localTail_lt, h.localTail⟩)
    (fun heq => heq ▸ ⟨h.localFront_lt, h.localFront⟩)
  rwa [Function.update_eq_self] at hnew

/-- The producer shows the element it has constructed. -/
theorem publish (h : Ring k link q pc path rest stored) (ha : a ∈ path ++ rest)
    (hc : ∀ b, pc.constructed b = if b = a then [some x] else [])
    (hc' : ∀ b, pc'.constructed b = []) (hp : ∀ b, b ≠ a → pc'.published b = pc.published b)
    (hroom : (stored a).length + 1 < 2 ^ k) (hfront : a ∈ path → a = q.tailBlock)
    (hlocal : a = q.tailBlock →
      gap (2 ^ k) (q.block a).localFront (q.block a).tail + 1 < 2 ^ k)
    (hfree : a ∈ rest → stored a ++ [some x] = pc'.published a)
    (hf : f = next (2 ^ k) (q.block a).tail) :
    Ring k link (q.modify a fun b => { b with tail := f }) pc' path rest
      (Function.update stored a (stored a ++ [some x])) := by
  subst hf
  have hs := h.stores a ha
  rw [hc a, if_pos rfl] at hs
  have hlen : (stored a ++ [some x]).length = (stored a).length + 1 := by simp
  refine h.modify _ ha _ rfl (fun b hb => by rw [hc' b, hc b, if_neg hb]) hp
    (by rw [hc' a]; exact hs.publish hroom) ?_ ?_ hfree ?_ ?_
  · intro hpath _ ht
    exact absurd (hfront hpath) ht
  · intro _ _
    simp
  · intro heq
    have hlt := h.localTail_lt
    have hgap := h.localTail
    rw [← heq] at hlt hgap
    refine ⟨hlt, ?_⟩
    simp only [hlen]
    exact Nat.le_succ_of_le hgap
  · intro heq
    have hlt := h.localFront_lt
    have hgap := h.localFront
    rw [← heq] at hlt hgap
    refine ⟨hlt, ?_⟩
    simp only [hlen]
    rw [gap_next_right hlt (hlocal heq), ← hgap, Nat.add_assoc]

/-- The producer moves on to the first free block. -/
theorem advanceTail (h : Ring k link q pc path (b :: rest) stored)
    (hc : ∀ a, pc'.constructed a = pc.constructed a)
    (hp : ∀ a, pc.published a = if a = b then [some x] else []) (hp' : ∀ a, pc'.published a = [])
    (hfull : TailFull k q stored) (hlocal : (q.block b).localFront = (q.block b).front) :
    Ring k link { q with tailBlock := b } pc' (path ++ [b]) rest stored := by
  have happ : path ++ [b] ++ rest = path ++ b :: rest := by simp
  have hb : stored b = [some x] := by simp [h.free b (by simp), hp]
  have hbmem : b ∈ path ++ b :: rest := by simp
  have hnodup := h.nodup
  have hnotin : b ∉ rest := (List.nodup_cons.mp hnodup.of_append_right).1
  exact {
    linked := by rw [happ]; exact h.linked
    chain := by rw [happ]; exact h.chain
    nodup := by rw [happ]; exact hnodup
    front := by
      rw [List.head?_append, h.front]
      rfl
    tail := by simp
    stores := by
      rw [happ]
      intro a ha
      rw [hc a]
      exact h.stores a ha
    full := by
      intro a ha hf ht
      have hmem : a ∈ path := by
        rcases List.mem_append.mp ha with hmem | hmem
        · exact hmem
        · exact absurd (List.mem_singleton.mp hmem) ht
      by_cases hold : a = q.tailBlock
      · rw [hold] at hf ⊢
        exact hfull hf
      · exact h.full a hmem hf hold
    filled := by
      intro a ha hf
      rcases List.mem_append.mp ha with hmem | hmem
      · exact h.filled a hmem hf
      · rw [List.mem_singleton.mp hmem, hb]
        simp
    free := by
      intro a ha
      have hne : a ≠ b := by
        rintro rfl
        exact hnotin ha
      rw [h.free a (List.mem_cons_of_mem b ha), hp a, if_neg hne, hp' a]
    localTail_lt := h.localTail_lt
    localTail := h.localTail
    localFront_lt := by
      rw [hlocal]
      exact (h.stores b hbmem).front_lt
    localFront := by
      rw [hlocal, gap_self, Nat.zero_add, (h.stores b hbmem).gap_eq] }

/-- The consumer takes the element at the head of the front block out of its slot. -/
theorem destroy (h : Ring k link q pc path rest stored) {o : Option α} {l : List (Option α)}
    (hl : stored q.frontBlock = o :: l) :
    Ring k link (q.modify q.frontBlock fun b =>
      { b with data := Function.update b.data (q.block q.frontBlock).front none }) pc path rest
      (Function.update stored q.frontBlock (none :: l)) := by
  have hs := h.at_front
  rw [hl] at hs
  have hmem : q.frontBlock ∈ path ++ rest := List.mem_append_left rest h.front_mem
  have hlen : (none :: l).length = (stored q.frontBlock).length := by simp [hl]
  refine h.modify _ hmem _ rfl (fun _ _ => rfl) (fun _ _ => rfl) hs.destroy ?_ ?_ ?_ ?_ ?_
  · intro _ hne
    exact absurd rfl hne
  · intro _ hne
    exact absurd rfl hne
  · intro hr
    exact absurd hr h.front_not_mem
  · intro _
    rw [hlen]
    exact ⟨h.localTail_lt, h.localTail⟩
  · intro heq
    refine ⟨heq ▸ h.localFront_lt, ?_⟩
    rw [hlen]
    exact heq ▸ h.localFront

/-- The consumer gives the slot free that it has emptied. -/
theorem release (h : Ring k link q pc path rest stored) {l : List (Option α)}
    (hl : stored q.frontBlock = none :: l)
    (hne : (q.block q.frontBlock).front ≠ (q.block q.frontBlock).localTail)
    (hroom : (stored q.frontBlock).length + (pc.constructed q.frontBlock).length < 2 ^ k)
    (hf : f = next (2 ^ k) (q.block q.frontBlock).front) :
    Ring k link (q.modify q.frontBlock fun b => { b with front := f }) pc path rest
      (Function.update stored q.frontBlock l) := by
  subst hf
  have hs := h.at_front
  have hlen : (stored q.frontBlock).length = l.length + 1 := by simp [hl]
  rw [hl] at hs
  have hmem : q.frontBlock ∈ path ++ rest := List.mem_append_left rest h.front_mem
  refine h.modify _ hmem _ rfl (fun _ _ => rfl) (fun _ _ => rfl) (hs.release ?_) ?_ ?_ ?_ ?_ ?_
  · omega
  · intro _ hne
    exact absurd rfl hne
  · intro _ hne
    exact absurd rfl hne
  · intro hr
    exact absurd hr h.front_not_mem
  · intro _
    have hlocal := h.localTail
    have hleft := gap_next_left hs.front_lt h.localTail_lt hne
    rw [hlen] at hlocal
    refine ⟨h.localTail_lt, ?_⟩
    simp only
    omega
  · intro heq
    have hlt := h.localFront_lt
    have hgap := h.localFront
    rw [← heq, hlen] at hgap
    rw [← heq] at hlt
    refine ⟨hlt, ?_⟩
    have hbound := gap_lt hlt hs.tail_lt
    simp only
    rw [gap_next_right hlt (by omega), ← hgap]
    omega

/-- The consumer moves on to the next block. -/
theorem advanceFront (h : Ring k link q pc path rest stored) (hb : b = link q.frontBlock)
    (hne : q.frontBlock ≠ q.tailBlock) (hnil : stored q.frontBlock = [])
    (hp : pc.published q.frontBlock = [])
    (hlt : (q.block b).localTail < 2 ^ k)
    (hgap : gap (2 ^ k) (q.block b).front (q.block b).localTail ≤ (stored b).length) :
    Ring k link { q with frontBlock := b } pc path.tail (rest ++ [q.frontBlock]) stored := by
  obtain ⟨p, hpath⟩ := h.path_cons hne
  rw [← hb] at hpath
  subst hpath
  have hperm : (b :: p ++ (rest ++ [q.frontBlock])).Perm (q.frontBlock :: b :: p ++ rest) := by
    rw [← List.append_assoc]
    exact List.perm_append_singleton _ _
  have hnodup := h.nodup
  have hnotin : q.frontBlock ∉ b :: p := (List.nodup_cons.mp hnodup.of_append_left).1
  have hpath_ne {a : Nat} (ha : a ∈ b :: p) : a ≠ q.frontBlock := by
    rintro rfl
    exact hnotin ha
  exact {
    linked := fun a ha => h.linked a (hperm.mem_iff.mp ha)
    chain := by
      have hchain := h.chain
      rw [List.cons_append, List.cons_append] at hchain
      have hlast : (b :: p ++ rest ++ [q.frontBlock] ++ [b]).IsChain fun a b => link a = b := by
        rw [List.append_assoc (b :: p ++ rest), List.singleton_append]
        refine List.isChain_split.mpr ⟨(List.isChain_cons_cons.mp hchain).2, ?_⟩
        exact List.isChain_pair.mpr hb.symm
      simpa using hlast
    nodup := hperm.nodup_iff.mpr hnodup
    front := rfl
    tail := by
      have htail := h.tail
      rwa [List.getLast?_cons_cons] at htail
    stores := fun a ha => h.stores a (hperm.mem_iff.mp ha)
    full := fun a ha _ ht => h.full a (List.mem_cons_of_mem _ ha) (hpath_ne ha) ht
    filled := fun a ha _ => h.filled a (List.mem_cons_of_mem _ ha) (hpath_ne ha)
    free := by
      intro a ha
      rcases List.mem_append.mp ha with hmem | hmem
      · exact h.free a hmem
      · rw [List.mem_singleton.mp hmem, hnil, hp]
    localTail_lt := hlt
    localTail := hgap
    localFront_lt := h.localFront_lt
    localFront := h.localFront }

end Ring

/-! ## The steps of the producer -/

variable {pc pc' : EnqueuePc α} {path path' : List Nat}

theorem flatMap_update_of_notMem {β : Type*} {l : List Nat} {f : Nat → List β} {a : Nat}
    {v : List β} (ha : a ∉ l) : l.flatMap (Function.update f a v) = l.flatMap f := by
  apply List.flatMap_congr
  intro b hb
  have hne : b ≠ a := by
    rintro rfl
    exact ha hb
  exact Function.update_of_ne hne ..

/-- What a step of the producer leads to. -/
structure Produced (k : Nat) (link : Nat → Nat) (q q' : ReaderWriterQueue α) (pc' : EnqueuePc α)
    (path rest : List Nat) (stored : Nat → List (Option α)) (path' rest' : List Nat)
    (stored' : Nat → List (Option α)) : Prop where
  ring : Ring k link q' pc' path' rest' stored'
  position : EnqueueAt k link q' rest' stored' pc'
  frame : ByProducer q q' stored stored'
  content : path'.flatMap stored' = path.flatMap stored ++ pc'.accepted.map some
  length_eq : (path' ++ rest').length = (path ++ rest).length

theorem ByProducer.refl (q : ReaderWriterQueue α) (stored : Nat → List (Option α)) :
    ByProducer q q stored stored :=
  ⟨rfl, fun _ => rfl, fun _ => rfl, fun _ => List.prefix_rfl, id, fun _ => ⟨rfl, rfl⟩⟩

/-- A change to the fields that the consumer does not read. -/
theorem ByProducer.modify {a : Nat} {g : Block α → Block α}
    (hfront : (g (q.block a)).front = (q.block a).front)
    (hlocalTail : (g (q.block a)).localTail = (q.block a).localTail)
    (htail : (g (q.block a)).tail = (q.block a).tail) :
    ByProducer q (q.modify a g) stored stored where
  frontBlock := rfl
  front := ReaderWriterQueue.modify_block_field Block.front q a hfront
  localTail := ReaderWriterQueue.modify_block_field Block.localTail q a hlocalTail
  grows := fun _ => List.prefix_rfl
  tailBlock := id
  settled := fun _ => ⟨rfl, ReaderWriterQueue.modify_block_field Block.tail q a htail _⟩

/-- A new element in a block that the consumer is not in, or that the producer is in too. -/
theorem ByProducer.publish {a t : Nat} {x : α}
    (ha : q.frontBlock ≠ q.tailBlock → q.frontBlock ≠ a) :
    ByProducer q (q.modify a fun b => { b with tail := t }) stored
      (Function.update stored a (stored a ++ [some x])) where
  frontBlock := rfl
  front := ReaderWriterQueue.modify_block_field Block.front q a rfl
  localTail := ReaderWriterQueue.modify_block_field Block.localTail q a rfl
  grows := by
    intro b
    by_cases hb : b = a
    · subst hb
      simp
    · have hsame := Function.update_of_ne hb (stored a ++ [some x]) stored
      exact hsame ▸ List.prefix_rfl
  tailBlock := id
  settled := by
    intro hne
    rw [Function.update_of_ne (ha hne), ReaderWriterQueue.modify_block_ne _ _ (ha hne)]
    exact ⟨rfl, rfl⟩

/-- A step that changes no block. -/
theorem Produced.stay (h : Ring k link q pc path rest stored)
    (hc : ∀ a, pc'.constructed a = pc.constructed a)
    (hp : ∀ a, pc'.published a = pc.published a)
    (hat : EnqueueAt k link q rest stored pc') (haccepted : pc'.accepted = []) :
    Produced k link q q pc' path rest stored path rest stored where
  ring := h.withPc hc hp
  position := hat
  frame := .refl q stored
  content := by simp [haccepted]
  length_eq := rfl

namespace Ring

variable {x : α} {a b f : Nat}

/-- Room as the producer sees it is room. -/
theorem room (h : Ring k link q pc path rest stored)
    (hgap : gap (2 ^ k) (q.block q.tailBlock).localFront (q.block q.tailBlock).tail + 1 < 2 ^ k) :
    (stored q.tailBlock).length + 1 < 2 ^ k := by
  have hlocal := h.localFront
  omega

theorem flatMap_publish (h : Ring k link q pc path rest stored) :
    path.flatMap (Function.update stored q.tailBlock (stored q.tailBlock ++ [some x])) =
      path.flatMap stored ++ [some x] := by
  obtain ⟨p, hp⟩ := List.getLast?_eq_some_iff.mp h.tail
  have hnodup := h.nodup.of_append_left
  rw [hp] at hnodup
  have hnotin : q.tailBlock ∉ p := fun hmem =>
    List.disjoint_of_nodup_append hnodup hmem (List.mem_singleton_self _)
  rw [hp, List.flatMap_append, List.flatMap_append, flatMap_update_of_notMem hnotin]
  simp

/-- The first free block is empty. -/
theorem next_empty (h : Ring k link q pc path rest stored) (hb : rest.head? = some b)
    (hp : pc.published b = []) : stored b = [] :=
  (h.free b (List.mem_of_mem_head? hb)).trans hp

end Ring

section EnqueueSteps

variable {x : α} {a b f t t' : Nat}

theorem produced_loadTail (h : Ring k link q (.loadTail x a) path rest stored)
    (hat : EnqueueAt k link q rest stored (.loadTail x a))
    (hstep : q.innerEnqueue (.loadTail x a) = some (q', pc')) :
    Produced k link q q' pc' path rest stored path rest stored := by
  have ha : a = q.tailBlock := hat
  subst ha
  have hs := h.at_tail
  simp only [ReaderWriterQueue.innerEnqueue, hs.succ_tail] at hstep
  split at hstep
  · next hne =>
      cases hstep
      refine .stay h (fun _ => rfl) (fun _ => rfl) ⟨rfl, rfl, rfl, ?_⟩ rfl
      have hlt := gap_lt h.localFront_lt hs.tail_lt
      have hfull : gap (2 ^ k) (q.block q.tailBlock).localFront (q.block q.tailBlock).tail + 1 ≠
          2 ^ k := fun heq => hne ((next_eq_iff h.localFront_lt hs.tail_lt).mpr heq)
      omega
  · cases hstep
    exact .stay h (fun _ => rfl) (fun _ => rfl) ⟨rfl, rfl, rfl⟩ rfl

theorem produced_loadFront (h : Ring k link q (.loadFront x a t t') path rest stored)
    (hat : EnqueueAt k link q rest stored (.loadFront x a t t'))
    (hstep : q.innerEnqueue (.loadFront x a t t') = some (q', pc')) :
    Produced k link q q' pc' path rest stored path rest stored := by
  obtain ⟨rfl, rfl, rfl⟩ := hat
  have hs := h.at_tail
  have hmem : q.tailBlock ∈ path ++ rest := List.mem_append_left rest h.tail_mem
  have hframe : ByProducer q (q.modify q.tailBlock fun b =>
      { b with localFront := (q.block q.tailBlock).front }) stored stored := .modify rfl rfl rfl
  simp only [ReaderWriterQueue.innerEnqueue] at hstep
  split at hstep
  · next hne =>
      cases hstep
      refine ⟨h.setLocalFront hmem rfl (fun _ => rfl) fun _ => rfl, ⟨rfl, ?_, rfl, ?_⟩, hframe,
        by simp [EnqueuePc.accepted], rfl⟩
      · rw [ReaderWriterQueue.modify_block_self]
      · rw [ReaderWriterQueue.modify_block_self]
        have hlt := gap_lt hs.front_lt hs.tail_lt
        have hfull : gap (2 ^ k) (q.block q.tailBlock).front (q.block q.tailBlock).tail + 1 ≠
            2 ^ k := fun heq => hne ((next_eq_iff hs.front_lt hs.tail_lt).mpr heq)
        simp only
        omega
  · next heq =>
      cases hstep
      refine ⟨h.setLocalFront hmem rfl (fun _ => rfl) fun _ => rfl, ⟨rfl, ?_⟩, hframe,
        by simp [EnqueuePc.accepted], rfl⟩
      intro _
      exact hs.full_iff.mp (Decidable.not_not.mp heq)

theorem produced_construct (h : Ring k link q (.construct x a t t') path rest stored)
    (hat : EnqueueAt k link q rest stored (.construct x a t t'))
    (hstep : q.innerEnqueue (.construct x a t t') = some (q', pc')) :
    Produced k link q q' pc' path rest stored path rest stored := by
  obtain ⟨rfl, rfl, rfl, hroom⟩ := hat
  have hs := h.at_tail
  have hmem : q.tailBlock ∈ path ++ rest := List.mem_append_left rest h.tail_mem
  simp only [ReaderWriterQueue.innerEnqueue, BlockHolds.slot_tail hs, Option.some.injEq,
    Prod.mk.injEq] at hstep
  obtain ⟨rfl, rfl⟩ := hstep
  refine ⟨h.construct hmem (fun _ => rfl) (fun _ => rfl) (fun _ => rfl) rfl, ⟨rfl, ?_, ?_⟩,
    .modify rfl rfl rfl, by simp [EnqueuePc.accepted], rfl⟩
  · rw [ReaderWriterQueue.modify_block_self]
  · rwa [ReaderWriterQueue.modify_block_self]

theorem produced_storeTail (h : Ring k link q (.storeTail x a t') path rest stored)
    (hat : EnqueueAt k link q rest stored (.storeTail x a t'))
    (hstep : q.innerEnqueue (.storeTail x a t') = some (q', pc')) :
    Produced k link q q' pc' path rest stored path rest
      (Function.update stored a (stored a ++ [some x])) := by
  obtain ⟨rfl, rfl, hroom⟩ := hat
  cases hstep
  have hmem : q.tailBlock ∈ path ++ rest := List.mem_append_left rest h.tail_mem
  refine ⟨?_, trivial, .publish id, h.flatMap_publish, rfl⟩
  refine h.publish hmem (fun _ => rfl) (fun _ => rfl) (fun _ _ => rfl) (h.room hroom)
    (fun _ => rfl) (fun _ => hroom) ?_ rfl
  intro hrest
  exact absurd hrest h.tail_not_mem

theorem produced_loadNext (h : Ring k link q (.loadNext x a) path rest stored)
    (hat : EnqueueAt k link q rest stored (.loadNext x a))
    (hstep : q.innerEnqueue (.loadNext x a) = some (q', pc')) :
    Produced k link q q' pc' path rest stored path rest stored := by
  obtain ⟨rfl, hfull⟩ := hat
  cases hstep
  exact .stay h (fun _ => rfl) (fun _ => rfl)
    ⟨rfl, h.linked _ (List.mem_append_left rest h.tail_mem), hfull⟩ rfl

theorem produced_loadFrontBlock (h : Ring k link q (.loadFrontBlock x a b) path rest stored)
    (hat : EnqueueAt k link q rest stored (.loadFrontBlock x a b))
    (hstep : q.innerEnqueue (.loadFrontBlock x a b) = some (q', pc')) :
    Produced k link q q' pc' path rest stored path rest stored := by
  obtain ⟨rfl, rfl, hfull⟩ := hat
  simp only [ReaderWriterQueue.innerEnqueue] at hstep
  split at hstep
  · next hne =>
      cases hstep
      exact .stay h (fun _ => rfl) (fun _ => rfl) ⟨rfl, h.link_tail_ne_iff.mp hne, hfull⟩ rfl
  · cases hstep
    exact .stay h (fun _ => rfl) (fun _ => rfl) trivial rfl

theorem produced_loadTailBlockNext (h : Ring k link q (.loadTailBlockNext x a) path rest stored)
    (hat : EnqueueAt k link q rest stored (.loadTailBlockNext x a))
    (hstep : q.innerEnqueue (.loadTailBlockNext x a) = some (q', pc')) :
    Produced k link q q' pc' path rest stored path rest stored := by
  obtain ⟨rfl, hrest, hfull⟩ := hat
  cases hstep
  refine .stay h (fun _ => rfl) (fun _ => rfl) ⟨?_, hfull⟩ rfl
  have hlink := h.link_tail
  rw [List.head?_append_of_ne_nil _ hrest] at hlink
  rw [hlink, h.linked _ (List.mem_append_left rest h.tail_mem)]

theorem produced_loadNextFront (h : Ring k link q (.loadNextFront x b) path rest stored)
    (hat : EnqueueAt k link q rest stored (.loadNextFront x b))
    (hstep : q.innerEnqueue (.loadNextFront x b) = some (q', pc')) :
    Produced k link q q' pc' path rest stored path rest stored := by
  obtain ⟨hb, hfull⟩ := hat
  cases hstep
  have hmem : b ∈ path ++ rest := List.mem_append_right path (List.mem_of_mem_head? hb)
  refine ⟨h.setLocalFront hmem rfl (fun _ => rfl) fun _ => rfl, ⟨hb, ?_, hfull⟩,
    .modify rfl rfl rfl, by simp [EnqueuePc.accepted], rfl⟩
  rw [ReaderWriterQueue.modify_block_self]

theorem produced_loadNextTail (h : Ring k link q (.loadNextTail x b f) path rest stored)
    (hat : EnqueueAt k link q rest stored (.loadNextTail x b f))
    (hstep : q.innerEnqueue (.loadNextTail x b f) = some (q', pc')) :
    Produced k link q q' pc' path rest stored path rest stored := by
  obtain ⟨hb, rfl, hfull⟩ := hat
  have hmem : b ∈ path ++ rest := List.mem_append_right path (List.mem_of_mem_head? hb)
  have hempty : (q.block b).front = (q.block b).tail :=
    (h.stores b hmem).empty_iff.mpr (h.next_empty hb rfl)
  simp only [ReaderWriterQueue.innerEnqueue, hempty, if_true, Option.some.injEq,
    Prod.mk.injEq] at hstep
  obtain ⟨rfl, rfl⟩ := hstep
  refine ⟨h.setLocalFront hmem hempty.symm (fun _ => rfl) fun _ => rfl, ⟨hb, ?_, ?_, hfull⟩,
    .modify rfl rfl rfl, by simp [EnqueuePc.accepted], rfl⟩
  · rw [ReaderWriterQueue.modify_block_self]
  · rw [ReaderWriterQueue.modify_block_self]
    exact hempty.symm

theorem produced_constructNext (h : Ring k link q (.constructNext x b t) path rest stored)
    (hat : EnqueueAt k link q rest stored (.constructNext x b t))
    (hstep : q.innerEnqueue (.constructNext x b t) = some (q', pc')) :
    Produced k link q q' pc' path rest stored path rest stored := by
  obtain ⟨hb, rfl, hlocal, hfull⟩ := hat
  have hmem : b ∈ path ++ rest := List.mem_append_right path (List.mem_of_mem_head? hb)
  simp only [ReaderWriterQueue.innerEnqueue, BlockHolds.slot_tail (h.stores b hmem),
    Option.some.injEq, Prod.mk.injEq] at hstep
  obtain ⟨rfl, rfl⟩ := hstep
  refine ⟨h.construct hmem (fun _ => rfl) (fun _ => rfl) (fun _ => rfl) rfl,
    ⟨hb, ?_, ?_, hfull⟩, .modify rfl rfl rfl, by simp [EnqueuePc.accepted], rfl⟩
  · rw [ReaderWriterQueue.modify_block_self]
  · rwa [ReaderWriterQueue.modify_block_self]

theorem produced_storeNextTail (h : Ring k link q (.storeNextTail x b t) path rest stored)
    (hat : EnqueueAt k link q rest stored (.storeNextTail x b t)) (hk : 2 ≤ 2 ^ k)
    (hstep : q.innerEnqueue (.storeNextTail x b t) = some (q', pc')) :
    Produced k link q q' pc' path rest stored path rest
      (Function.update stored b (stored b ++ [some x])) := by
  obtain ⟨hb, rfl, hlocal, hfull⟩ := hat
  cases hstep
  have hrest : b ∈ rest := List.mem_of_mem_head? hb
  have hmem : b ∈ path ++ rest := List.mem_append_right path hrest
  have hpath : b ∉ path := fun hin => List.disjoint_of_nodup_append h.nodup hin hrest
  have hempty : stored b = [] := h.next_empty hb rfl
  have htail : b ≠ q.tailBlock := fun heq => h.tail_not_mem (heq ▸ hrest)
  have hfront : q.frontBlock ≠ b := fun heq => h.front_not_mem (heq ▸ hrest)
  refine ⟨?_, ⟨hb, ?_, ?_⟩, .publish fun _ => hfront, ?_, rfl⟩
  · refine h.publish hmem (fun _ => rfl) (fun _ => rfl) ?_ ?_ (fun hin => absurd hin hpath)
      (fun heq => absurd heq htail) ?_ (h.stores b hmem).succ_tail
    · intro c hc
      simp [EnqueuePc.published, hc]
    · simp only [hempty, List.length_nil]
      omega
    · intro _
      simp [EnqueuePc.published, hempty]
  · rwa [ReaderWriterQueue.modify_block_self]
  · intro hne
    rw [Function.update_of_ne (by exact htail.symm)]
    exact hfull hne
  · rw [flatMap_update_of_notMem hpath]
    simp [EnqueuePc.accepted]

theorem produced_storeTailBlock (h : Ring k link q (.storeTailBlock x b) path (b :: rest) stored)
    (hlocal : (q.block b).localFront = (q.block b).front) (hfull : TailFull k q stored)
    (hstep : q.innerEnqueue (.storeTailBlock x b) = some (q', pc')) :
    Produced k link q q' pc' path (b :: rest) stored (path ++ [b]) rest stored := by
  cases hstep
  refine ⟨h.advanceTail (fun _ => rfl) (fun _ => rfl) (fun _ => rfl) hfull hlocal, trivial,
    ⟨rfl, fun _ => rfl, fun _ => rfl, fun _ => List.prefix_rfl, ?_, fun _ => ⟨rfl, rfl⟩⟩, ?_, ?_⟩
  · intro _ heq
    exact h.front_not_mem (by simp [heq])
  · have hb : stored b = [some x] := by simp [h.free b (by simp), EnqueuePc.published]
    simp [hb, EnqueuePc.accepted]
  · simp

end EnqueueSteps

/-- Every step of the producer. -/
theorem exists_produced (h : Ring k link q pc path rest stored)
    (hat : EnqueueAt k link q rest stored pc)
    (htwo : (path ++ rest).length = 1 ∨ 2 ≤ 2 ^ k)
    (hstep : q.innerEnqueue pc = some (q', pc')) :
    ∃ path' rest' stored', Produced k link q q' pc' path rest stored path' rest' stored' := by
  cases pc with
  | ready => cases hstep
  | returned x result => cases hstep
  | broken => cases hstep
  | loadTailBlock x =>
      cases hstep
      exact ⟨_, _, _, .stay h (fun _ => rfl) (fun _ => rfl) rfl rfl⟩
  | loadTail x a => exact ⟨_, _, _, produced_loadTail h hat hstep⟩
  | loadFront x a t t' => exact ⟨_, _, _, produced_loadFront h hat hstep⟩
  | construct x a t t' => exact ⟨_, _, _, produced_construct h hat hstep⟩
  | storeTail x a t' => exact ⟨_, _, _, produced_storeTail h hat hstep⟩
  | loadNext x a => exact ⟨_, _, _, produced_loadNext h hat hstep⟩
  | loadFrontBlock x a b => exact ⟨_, _, _, produced_loadFrontBlock h hat hstep⟩
  | loadTailBlockNext x a => exact ⟨_, _, _, produced_loadTailBlockNext h hat hstep⟩
  | loadNextFront x b => exact ⟨_, _, _, produced_loadNextFront h hat hstep⟩
  | loadNextTail x b f => exact ⟨_, _, _, produced_loadNextTail h hat hstep⟩
  | constructNext x b t => exact ⟨_, _, _, produced_constructNext h hat hstep⟩
  | storeNextTail x b t =>
      have hk : 2 ≤ 2 ^ k := by
        rcases htwo with hone | hk
        · have hpath := List.length_pos_of_mem h.front_mem
          have hrest := List.length_pos_of_mem (List.mem_of_mem_head? hat.1)
          rw [List.length_append] at hone
          omega
        · exact hk
      exact ⟨_, _, _, produced_storeNextTail h hat hk hstep⟩
  | storeTailBlock x b =>
      obtain ⟨hb, hlocal, hfull⟩ := hat
      obtain ⟨rest, rfl⟩ := List.head?_eq_some_iff.mp hb
      exact ⟨_, _, _, produced_storeTailBlock h hlocal hfull hstep⟩

/-! ## The steps of the consumer -/

/-- What a step of the consumer leads to. -/
structure Consumed (k : Nat) (link : Nat → Nat) (q q' : ReaderWriterQueue α) (pc : EnqueuePc α)
    (dpc' : DequeuePc α) (path rest : List Nat) (stored : Nat → List (Option α)) (queued : List α)
    (path' rest' : List Nat) (stored' : Nat → List (Option α)) (queued' : List α) : Prop where
  ring : Ring k link q' pc path' rest' stored'
  position : DequeueAt k link q' stored' dpc'
  frame : ByConsumer q q' rest rest' stored stored'
  content : Content dpc' queued' (path'.flatMap stored')
  received : queued = dpc'.received ++ queued'
  length_eq : (path' ++ rest').length = (path ++ rest).length

variable {queued queued' : List α} {dpc dpc' : DequeuePc α}

theorem ByConsumer.refl (q : ReaderWriterQueue α) (rest : List Nat)
    (stored : Nat → List (Option α)) : ByConsumer q q rest rest stored stored :=
  ⟨rfl, id, fun _ => rfl, fun _ => rfl, fun _ _ => rfl, fun _ _ => rfl, fun _ => le_rfl,
    List.prefix_rfl⟩

/-- A change to the fields that the producer does not read. -/
theorem ByConsumer.modify {a : Nat} {g : Block α → Block α}
    (htail : (g (q.block a)).tail = (q.block a).tail)
    (hlocalFront : (g (q.block a)).localFront = (q.block a).localFront)
    (hfront : a ≠ q.frontBlock → (g (q.block a)).front = (q.block a).front)
    (hstored : ∀ b, b ≠ q.frontBlock → stored' b = stored b)
    (hshrinks : (stored' q.frontBlock).length ≤ (stored q.frontBlock).length) :
    ByConsumer q (q.modify a g) rest rest stored stored' where
  tailBlock := rfl
  frontBlock := id
  tail := ReaderWriterQueue.modify_block_field Block.tail q a htail
  localFront := ReaderWriterQueue.modify_block_field Block.localFront q a hlocalFront
  front := by
    intro b hb
    by_cases heq : b = a
    · subst heq
      rw [ReaderWriterQueue.modify_block_self, hfront hb]
    · rw [ReaderWriterQueue.modify_block_ne _ _ heq]
  kept := hstored
  shrinks := by
    intro b
    by_cases hb : b = q.frontBlock
    · rw [hb]
      exact hshrinks
    · rw [hstored b hb]
  rest := List.prefix_rfl

/-- A step that changes no block. -/
theorem Consumed.stay (h : Ring k link q pc path rest stored)
    (hat : DequeueAt k link q stored dpc') (hcontent : Content dpc' queued (path.flatMap stored))
    (hreceived : dpc'.received = []) :
    Consumed k link q q pc dpc' path rest stored queued path rest stored queued :=
  ⟨h, hat, .refl q rest stored, hcontent, by simp [hreceived], rfl⟩

/-- A new copy of `tail`. -/
theorem Consumed.copyTail {a : Nat} (h : Ring k link q pc path rest stored)
    (ha : a ∈ path ++ rest)
    (hat : DequeueAt k link
      (q.modify a fun b => { b with localTail := (q.block a).tail }) stored dpc')
    (hcontent : Content dpc' queued (path.flatMap stored)) (hreceived : dpc'.received = []) :
    Consumed k link q (q.modify a fun b => { b with localTail := (q.block a).tail }) pc dpc'
      path rest stored queued path rest stored queued :=
  ⟨h.setLocalTail ha, hat, .modify rfl rfl (fun _ => rfl) (fun _ _ => rfl) le_rfl, hcontent,
    by simp [hreceived], rfl⟩

/-- The path begins with the front block. -/
theorem Ring.path_eq (h : Ring k link q pc path rest stored) : ∃ p, path = q.frontBlock :: p :=
  ⟨path.tail, (List.cons_head?_tail h.front).symm⟩

theorem Ring.front_notMem_tail (h : Ring k link q pc path rest stored) {p : List Nat}
    (hp : path = q.frontBlock :: p) : q.frontBlock ∉ p := by
  have hnodup := h.nodup.of_append_left
  rw [hp] at hnodup
  exact (List.nodup_cons.mp hnodup).1

section DequeueSteps

variable {x : α} {a b f t : Nat}

theorem consumed_loadFront (h : Ring k link q pc path rest stored)
    (hat : DequeueAt k link q stored (.loadFront a))
    (hcontent : Content (.loadFront a) queued (path.flatMap stored))
    (hstep : q.tryDequeue (.loadFront a) = some (q', dpc')) :
    Consumed k link q q' pc dpc' path rest stored queued path rest stored queued := by
  have ha : a = q.frontBlock := hat
  subst ha
  simp only [ReaderWriterQueue.tryDequeue] at hstep
  split at hstep
  · next hne =>
      cases hstep
      refine .stay h ⟨rfl, rfl, hne, ?_⟩ hcontent rfl
      intro hnil
      have hlocal := h.localTail
      rw [hnil, List.length_nil, Nat.le_zero, gap_eq_zero h.at_front.front_lt] at hlocal
      exact hne hlocal
  · cases hstep
    exact .stay h ⟨rfl, rfl⟩ hcontent rfl

theorem consumed_loadTail (h : Ring k link q pc path rest stored)
    (hat : DequeueAt k link q stored (.loadTail a f))
    (hcontent : Content (.loadTail a f) queued (path.flatMap stored))
    (hstep : q.tryDequeue (.loadTail a f) = some (q', dpc')) :
    Consumed k link q q' pc dpc' path rest stored queued path rest stored queued := by
  obtain ⟨rfl, rfl⟩ := hat
  have hmem : q.frontBlock ∈ path ++ rest := List.mem_append_left rest h.front_mem
  simp only [ReaderWriterQueue.tryDequeue] at hstep
  split at hstep
  · next hne =>
      cases hstep
      refine .copyTail h hmem ⟨rfl, ?_, ?_, ?_⟩ hcontent rfl
      · rw [ReaderWriterQueue.modify_block_self]
      · rwa [ReaderWriterQueue.modify_block_self]
      · exact fun hnil => hne (h.at_front.empty_iff.mpr hnil)
  · cases hstep
    exact .copyTail h hmem rfl hcontent rfl

theorem consumed_reloadFront (h : Ring k link q pc path rest stored)
    (hat : DequeueAt k link q stored (.reloadFront a t))
    (hcontent : Content (.reloadFront a t) queued (path.flatMap stored))
    (hstep : q.tryDequeue (.reloadFront a t) = some (q', dpc')) :
    Consumed k link q q' pc dpc' path rest stored queued path rest stored queued := by
  obtain ⟨rfl, hne, rfl, hlocal⟩ := hat
  simp only [ReaderWriterQueue.tryDequeue] at hstep
  split at hstep
  · next hfilled =>
      cases hstep
      refine .stay h ⟨rfl, rfl, hlocal ▸ hfilled, ?_⟩ hcontent rfl
      exact fun hnil => hfilled (h.at_front.empty_iff.mpr hnil)
  · next hempty =>
      cases hstep
      exact .stay h ⟨rfl, hne, h.at_front.empty_iff.mp (Decidable.not_not.mp hempty)⟩ hcontent rfl

/-- The block after the front block, when the front block is not the tail block. -/
theorem Ring.link_front (h : Ring k link q pc path rest stored)
    (hne : q.frontBlock ≠ q.tailBlock) :
    link q.frontBlock ∈ path ∧ link q.frontBlock ≠ q.frontBlock := by
  obtain ⟨p, hp⟩ := h.path_cons hne
  have hnotin := h.front_notMem_tail hp
  refine ⟨by simp [hp], ?_⟩
  intro heq
  exact hnotin (by simp [heq])

theorem consumed_loadNextTail (h : Ring k link q pc path rest stored)
    (hat : DequeueAt k link q stored (.loadNextTail b f))
    (hcontent : Content (.loadNextTail b f) queued (path.flatMap stored))
    (hstep : q.tryDequeue (.loadNextTail b f) = some (q', dpc')) :
    Consumed k link q q' pc dpc' path rest stored queued path rest stored queued := by
  obtain ⟨rfl, hne, hnil, rfl⟩ := hat
  obtain ⟨hpath, hself⟩ := h.link_front hne
  have hmem : link q.frontBlock ∈ path ++ rest := List.mem_append_left rest hpath
  have hs := h.stores _ hmem
  have hfilled : (q.block (link q.frontBlock)).front ≠ (q.block (link q.frontBlock)).tail :=
    fun heq => h.filled _ hpath hself (hs.empty_iff.mp heq)
  simp only [ReaderWriterQueue.tryDequeue, ne_eq, hfilled, not_false_eq_true, if_true,
    Option.some.injEq, Prod.mk.injEq] at hstep
  obtain ⟨rfl, rfl⟩ := hstep
  refine .copyTail h hmem ⟨rfl, hne, hnil, ?_, ?_, ?_, ?_⟩ hcontent rfl
  · rw [ReaderWriterQueue.modify_block_self]
  · rwa [ReaderWriterQueue.modify_block_self]
  · rw [ReaderWriterQueue.modify_block_self]
    exact hs.tail_lt
  · rw [ReaderWriterQueue.modify_block_self]
    exact hs.gap_eq.le

theorem consumed_storeFrontBlock (h : Ring k link q pc path rest stored)
    (hat : DequeueAt k link q stored (.storeFrontBlock b f))
    (hcontent : Content (.storeFrontBlock b f) queued (path.flatMap stored))
    (hp : pc.published q.frontBlock = [])
    (hstep : q.tryDequeue (.storeFrontBlock b f) = some (q', dpc')) :
    Consumed k link q q' pc dpc' path rest stored queued path.tail (rest ++ [q.frontBlock])
      stored queued := by
  obtain ⟨hb, hne, hnil, rfl, hlocal, hlt, hgap⟩ := hat
  cases hstep
  obtain ⟨hpath, hself⟩ := h.link_front hne
  rw [← hb] at hpath hself
  obtain ⟨p, hp'⟩ := h.path_eq
  refine ⟨h.advanceFront hb hne hnil hp hlt hgap,
    ⟨rfl, rfl, hlocal, h.filled b hpath hself⟩,
    ⟨rfl, fun _ => hne.symm, fun _ => rfl, fun _ => rfl, fun _ _ => rfl, fun _ _ => rfl,
      fun _ => le_rfl, List.prefix_append _ _⟩, ?_, rfl, ?_⟩
  · rw [hp', List.flatMap_cons, hnil, List.nil_append] at hcontent
    rw [hp', List.tail_cons]
    exact hcontent
  · rw [hp', List.tail_cons]
    simp only [List.length_append, List.length_cons, List.length_nil]
    omega

theorem consumed_take (h : Ring k link q pc path rest stored)
    (hat : DequeueAt k link q stored (.take a f))
    (hcontent : Content (.take a f) queued (path.flatMap stored))
    (hstep : q.tryDequeue (.take a f) = some (q', dpc')) :
    ∃ stored', Consumed k link q q' pc dpc' path rest stored queued path rest stored' queued := by
  obtain ⟨rfl, rfl, hlocal, hfilled⟩ := hat
  obtain ⟨o, l, hl⟩ := List.exists_cons_of_ne_nil hfilled
  obtain ⟨p, hp⟩ := h.path_eq
  have hnotin := h.front_notMem_tail hp
  have hs := h.at_front
  rw [hl] at hs
  have hmap : queued.map some = o :: (l ++ p.flatMap stored) := by
    have hall : path.flatMap stored = queued.map some := hcontent
    rw [← hall, hp, List.flatMap_cons, hl, List.cons_append]
  obtain ⟨x, queued', rfl, rfl, hrest⟩ := List.map_eq_cons_iff.mp hmap
  simp only [ReaderWriterQueue.tryDequeue, hs.slot_front, Option.some.injEq,
    Prod.mk.injEq] at hstep
  obtain ⟨rfl, rfl⟩ := hstep
  refine ⟨_, h.destroy hl, ⟨rfl, ?_, ?_, ?_⟩,
    .modify rfl rfl (fun _ => rfl) (fun b hb => Function.update_of_ne hb ..) ?_,
    ⟨queued', rfl, ?_⟩, rfl, rfl⟩
  · rw [ReaderWriterQueue.modify_block_self]
  · rwa [ReaderWriterQueue.modify_block_self]
  · simp
  · simp [hl]
  · rw [hp, List.flatMap_cons, Function.update_self, flatMap_update_of_notMem hnotin, hrest]
    rfl

theorem consumed_storeFront (h : Ring k link q pc path rest stored)
    (hat : DequeueAt k link q stored (.storeFront a f x))
    (hcontent : Content (.storeFront a f x) queued (path.flatMap stored))
    (hroom : (stored q.frontBlock).length + (pc.constructed q.frontBlock).length < 2 ^ k)
    (hstep : q.tryDequeue (.storeFront a f x) = some (q', dpc')) :
    ∃ stored' queued',
      Consumed k link q q' pc dpc' path rest stored queued path rest stored' queued' := by
  obtain ⟨rfl, rfl, hlocal, hhead⟩ := hat
  obtain ⟨l, hl⟩ := List.head?_eq_some_iff.mp hhead
  obtain ⟨p, hp⟩ := h.path_eq
  have hnotin := h.front_notMem_tail hp
  obtain ⟨queued', rfl, hall⟩ := hcontent
  cases hstep
  refine ⟨_, queued', h.release hl hlocal hroom h.at_front.succ_front, trivial,
    .modify rfl rfl (fun hne => absurd rfl hne) (fun b hb => Function.update_of_ne hb ..) ?_,
    ?_, rfl, rfl⟩
  · simp [hl]
  · rw [hp, List.flatMap_cons, hl, List.cons_append, List.cons.injEq] at hall
    have hleft := hall.2
    rw [hp, List.flatMap_cons, Function.update_self, flatMap_update_of_notMem hnotin]
    exact hleft

end DequeueSteps

/-- What the producer has in hand does not stand in the front block's way. -/
theorem EnqueueAt.front_room (hat : EnqueueAt k link q rest stored pc)
    (h : Ring k link q pc path rest stored) :
    pc.published q.frontBlock = [] ∧
      (stored q.frontBlock).length + (pc.constructed q.frontBlock).length < 2 ^ k := by
  have hlt := h.at_front.length_lt
  have hother {b : Nat} (hb : rest.head? = some b) : q.frontBlock ≠ b := by
    rintro rfl
    exact h.front_not_mem (List.mem_of_mem_head? hb)
  cases pc with
  | storeTail x a t' =>
      obtain ⟨rfl, _, hroom⟩ := hat
      refine ⟨rfl, ?_⟩
      by_cases heq : q.frontBlock = q.tailBlock
      · have hroom' := h.room hroom
        simpa [EnqueuePc.constructed, heq] using hroom'
      · simpa [EnqueuePc.constructed, heq] using hlt
  | storeNextTail x b t =>
      have hne := hother hat.1
      exact ⟨rfl, by simpa [EnqueuePc.constructed, hne] using hlt⟩
  | storeTailBlock x b =>
      have hne := hother hat.1
      exact ⟨by simp [EnqueuePc.published, hne], hlt⟩
  | _ => exact ⟨rfl, hlt⟩

/-- Every step of the consumer. -/
theorem exists_consumed (h : Ring k link q pc path rest stored)
    (henqueue : EnqueueAt k link q rest stored pc) (hat : DequeueAt k link q stored dpc)
    (hcontent : Content dpc queued (path.flatMap stored))
    (hstep : q.tryDequeue dpc = some (q', dpc')) :
    ∃ path' rest' stored' queued',
      Consumed k link q q' pc dpc' path rest stored queued path' rest' stored' queued' := by
  obtain ⟨hp, hroom⟩ := henqueue.front_room h
  cases dpc with
  | loadFrontBlock =>
      cases hstep
      exact ⟨_, _, _, _, .stay h rfl hcontent rfl⟩
  | loadFront a => exact ⟨_, _, _, _, consumed_loadFront h hat hcontent hstep⟩
  | loadTail a f => exact ⟨_, _, _, _, consumed_loadTail h hat hcontent hstep⟩
  | loadTailBlock a =>
      have ha : a = q.frontBlock := hat
      subst ha
      simp only [ReaderWriterQueue.tryDequeue] at hstep
      split at hstep
      · next hne =>
          cases hstep
          exact ⟨_, _, _, _, .stay h hne hcontent rfl⟩
      · cases hstep
        exact ⟨_, _, _, _, .stay h trivial hcontent rfl⟩
  | reloadFrontBlock =>
      cases hstep
      exact ⟨_, _, _, _, .stay h ⟨rfl, hat⟩ hcontent rfl⟩
  | reloadTail a =>
      obtain ⟨rfl, hne⟩ := hat
      cases hstep
      have hmem : q.frontBlock ∈ path ++ rest := List.mem_append_left rest h.front_mem
      refine ⟨_, _, _, _, .copyTail h hmem ⟨rfl, hne, ?_, ?_⟩ hcontent rfl⟩
      · rw [ReaderWriterQueue.modify_block_self]
      · rw [ReaderWriterQueue.modify_block_self]
  | reloadFront a t => exact ⟨_, _, _, _, consumed_reloadFront h hat hcontent hstep⟩
  | loadNext a =>
      obtain ⟨rfl, hne, hnil⟩ := hat
      cases hstep
      have hmem : q.frontBlock ∈ path ++ rest := List.mem_append_left rest h.front_mem
      exact ⟨_, _, _, _, .stay h ⟨h.linked _ hmem, hne, hnil⟩ hcontent rfl⟩
  | loadNextFront b =>
      obtain ⟨hb, hne, hnil⟩ := hat
      cases hstep
      exact ⟨_, _, _, _, .stay h ⟨hb, hne, hnil, rfl⟩ hcontent rfl⟩
  | loadNextTail b f => exact ⟨_, _, _, _, consumed_loadNextTail h hat hcontent hstep⟩
  | storeFrontBlock b f =>
      exact ⟨_, _, _, _, consumed_storeFrontBlock h hat hcontent hp hstep⟩
  | take a f =>
      obtain ⟨stored', hconsumed⟩ := consumed_take h hat hcontent hstep
      exact ⟨_, _, _, _, hconsumed⟩
  | storeFront a f x =>
      obtain ⟨stored', queued', hconsumed⟩ := consumed_storeFront h hat hcontent hroom hstep
      exact ⟨_, _, _, _, hconsumed⟩
  | ready => cases hstep
  | dequeued result => cases hstep
  | countFrontBlock => cases hstep
  | countFront a b result => cases hstep
  | countTail a b f result => cases hstep
  | countNext a b result => cases hstep
  | counted result => cases hstep
  | broken => cases hstep

end Debe
