import Debe.Lib.CircularBuffer
import Debe.Lib.Runs

/-!
# The queue under `MessageQueue`

`ReaderWriterQueue` of `messageQueue/readerwriterqueue.h`, as `MessageQueue` uses it:
`try_enqueue`, which is `inner_enqueue<CannotAlloc>`, on one thread, and `try_dequeue` and
`size_approx` on another.  A ring of blocks is set up by the constructor and stays as it is.
Each block is a circular buffer with one slot left free.

The threads run in any order, and each access of shared memory is one step: each load and
store of a `weak_atomic` and each construction and destruction of an element.  A thread's own
variables, `localTail` with the consumer and `localFront` with the producer, are read and
written along with the access next to them.  Accesses take effect in one order that both
threads see, which is what the fences of the source are there for.
-/

namespace Debe

/-- A `Block`.  A pointer to a block is a number.  A slot of `data` is `none` while it holds
no element. -/
structure Block (α : Type*) where
  front : Nat
  /-- The consumer's copy of `tail`. -/
  localTail : Nat
  tail : Nat
  /-- The producer's copy of `front`. -/
  localFront : Nat
  next : Nat
  data : Nat → Option α
  sizeMask : Nat

/-- A `ReaderWriterQueue`. -/
structure ReaderWriterQueue (α : Type*) where
  block : Nat → Block α
  frontBlock : Nat
  tailBlock : Nat

/-- Where the producer stands in `inner_enqueue<CannotAlloc>`: before the access named, with
its local variables. -/
inductive EnqueuePc (α : Type*)
  /-- No call yet. -/
  | ready
  | loadTailBlock (element : α)
  | loadTail (element : α) (tailBlock_ : Nat)
  | loadFront (element : α) (tailBlock_ blockTail nextBlockTail : Nat)
  | construct (element : α) (tailBlock_ blockTail nextBlockTail : Nat)
  | storeTail (element : α) (tailBlock_ nextBlockTail : Nat)
  | loadNext (element : α) (tailBlock_ : Nat)
  | loadFrontBlock (element : α) (tailBlock_ next : Nat)
  | loadTailBlockNext (element : α) (tailBlock_ : Nat)
  | loadNextFront (element : α) (tailBlockNext : Nat)
  | loadNextTail (element : α) (tailBlockNext nextBlockFront : Nat)
  | constructNext (element : α) (tailBlockNext nextBlockTail : Nat)
  | storeNextTail (element : α) (tailBlockNext nextBlockTail : Nat)
  | storeTailBlock (element : α) (tailBlockNext : Nat)
  /-- The call with this element returned `result`. -/
  | returned (element : α) (result : Bool)
  /-- An assertion does not hold, or an element is constructed over another. -/
  | broken
  deriving DecidableEq, Repr

/-- Where the consumer stands in `try_dequeue` or in `size_approx`. -/
inductive DequeuePc (α : Type*)
  | ready
  | loadFrontBlock
  | loadFront (frontBlock_ : Nat)
  | loadTail (frontBlock_ blockFront : Nat)
  | loadTailBlock (frontBlock_ : Nat)
  | reloadFrontBlock
  | reloadTail (frontBlock_ : Nat)
  | reloadFront (frontBlock_ blockTail : Nat)
  | loadNext (frontBlock_ : Nat)
  | loadNextFront (nextBlock : Nat)
  | loadNextTail (nextBlock nextBlockFront : Nat)
  | storeFrontBlock (nextBlock nextBlockFront : Nat)
  /-- Before the element is moved out and destroyed. -/
  | take (frontBlock_ blockFront : Nat)
  | storeFront (frontBlock_ blockFront : Nat) (result : α)
  /-- `try_dequeue` returned, with an element if it returned true. -/
  | dequeued (result : Option α)
  | countFrontBlock
  | countFront (frontBlock_ block result : Nat)
  | countTail (frontBlock_ block blockFront result : Nat)
  | countNext (frontBlock_ block result : Nat)
  /-- `size_approx` returned. -/
  | counted (result : Nat)
  /-- An assertion does not hold, or there is no element in the slot read. -/
  | broken
  deriving DecidableEq, Repr

variable {α : Type*}

/-- No call is running. -/
def EnqueuePc.idle : EnqueuePc α → Bool
  | .ready | .returned _ _ => true
  | _ => false

/-- No call is running. -/
def DequeuePc.idle : DequeuePc α → Bool
  | .ready | .dequeued _ | .counted _ => true
  | _ => false

namespace ReaderWriterQueue

/-- A change of the block at `p`. -/
def modify (q : ReaderWriterQueue α) (p : Nat) (f : Block α → Block α) : ReaderWriterQueue α :=
  { q with block := Function.update q.block p (f (q.block p)) }

@[simp] theorem modify_frontBlock (q : ReaderWriterQueue α) (p : Nat)
    (f : Block α → Block α) : (q.modify p f).frontBlock = q.frontBlock := rfl

@[simp] theorem modify_tailBlock (q : ReaderWriterQueue α) (p : Nat)
    (f : Block α → Block α) : (q.modify p f).tailBlock = q.tailBlock := rfl

@[simp] theorem modify_block_self (q : ReaderWriterQueue α) (p : Nat)
    (f : Block α → Block α) : (q.modify p f).block p = f (q.block p) := Function.update_self ..

theorem modify_block_ne (q : ReaderWriterQueue α) {p p' : Nat} (f : Block α → Block α)
    (hne : p' ≠ p) : (q.modify p f).block p' = q.block p' := Function.update_of_ne hne ..

/-- A field that the change of a block leaves alone. -/
theorem modify_block_field {β : Type*} (field : Block α → β) (q : ReaderWriterQueue α) (p : Nat)
    {f : Block α → Block α} (hf : field (f (q.block p)) = field (q.block p))
    (p' : Nat) : field ((q.modify p f).block p') = field (q.block p') := by
  by_cases hp : p' = p
  · rw [hp, modify_block_self, hf]
  · rw [modify_block_ne q f hp]

/-- One access of `inner_enqueue<CannotAlloc>`. -/
def innerEnqueue (q : ReaderWriterQueue α) :
    EnqueuePc α → Option (ReaderWriterQueue α × EnqueuePc α)
  | .loadTailBlock x => some (q, .loadTail x q.tailBlock)
  | .loadTail x tailBlock_ =>
      let b := q.block tailBlock_
      let nextBlockTail := (b.tail + 1) &&& b.sizeMask
      some (q, if nextBlockTail ≠ b.localFront then .construct x tailBlock_ b.tail nextBlockTail
        else .loadFront x tailBlock_ b.tail nextBlockTail)
  | .loadFront x tailBlock_ blockTail nextBlockTail =>
      let front := (q.block tailBlock_).front
      some (q.modify tailBlock_ fun b => { b with localFront := front },
        if nextBlockTail ≠ front then .construct x tailBlock_ blockTail nextBlockTail
        else .loadNext x tailBlock_)
  | .construct x tailBlock_ blockTail nextBlockTail =>
      match (q.block tailBlock_).data blockTail with
      | none => some (q.modify tailBlock_ fun b =>
          { b with data := Function.update b.data blockTail (some x) },
          .storeTail x tailBlock_ nextBlockTail)
      | some _ => some (q, .broken)
  | .storeTail x tailBlock_ nextBlockTail =>
      some (q.modify tailBlock_ fun b => { b with tail := nextBlockTail }, .returned x true)
  | .loadNext x tailBlock_ =>
      some (q, .loadFrontBlock x tailBlock_ (q.block tailBlock_).next)
  | .loadFrontBlock x tailBlock_ next =>
      some (q, if next ≠ q.frontBlock then .loadTailBlockNext x tailBlock_
        else .returned x false)
  | .loadTailBlockNext x tailBlock_ => some (q, .loadNextFront x (q.block tailBlock_).next)
  | .loadNextFront x tailBlockNext =>
      let front := (q.block tailBlockNext).front
      some (q.modify tailBlockNext fun b => { b with localFront := front },
        .loadNextTail x tailBlockNext front)
  | .loadNextTail x tailBlockNext nextBlockFront =>
      let nextBlockTail := (q.block tailBlockNext).tail
      if nextBlockFront = nextBlockTail then
        some (q.modify tailBlockNext fun b => { b with localFront := nextBlockFront },
          .constructNext x tailBlockNext nextBlockTail)
      else some (q, .broken)
  | .constructNext x tailBlockNext nextBlockTail =>
      match (q.block tailBlockNext).data nextBlockTail with
      | none => some (q.modify tailBlockNext fun b =>
          { b with data := Function.update b.data nextBlockTail (some x) },
          .storeNextTail x tailBlockNext nextBlockTail)
      | some _ => some (q, .broken)
  | .storeNextTail x tailBlockNext nextBlockTail =>
      some (q.modify tailBlockNext fun b =>
        { b with tail := (nextBlockTail + 1) &&& b.sizeMask }, .storeTailBlock x tailBlockNext)
  | .storeTailBlock x tailBlockNext =>
      some ({ q with tailBlock := tailBlockNext }, .returned x true)
  | .ready | .returned _ _ | .broken => none

/-- One access of `try_dequeue`. -/
def tryDequeue (q : ReaderWriterQueue α) :
    DequeuePc α → Option (ReaderWriterQueue α × DequeuePc α)
  | .loadFrontBlock => some (q, .loadFront q.frontBlock)
  | .loadFront frontBlock_ =>
      let b := q.block frontBlock_
      some (q, if b.front ≠ b.localTail then .take frontBlock_ b.front
        else .loadTail frontBlock_ b.front)
  | .loadTail frontBlock_ blockFront =>
      let tail := (q.block frontBlock_).tail
      some (q.modify frontBlock_ fun b => { b with localTail := tail },
        if blockFront ≠ tail then .take frontBlock_ blockFront else .loadTailBlock frontBlock_)
  | .loadTailBlock frontBlock_ =>
      some (q, if frontBlock_ ≠ q.tailBlock then .reloadFrontBlock else .dequeued none)
  | .reloadFrontBlock => some (q, .reloadTail q.frontBlock)
  | .reloadTail frontBlock_ =>
      let tail := (q.block frontBlock_).tail
      some (q.modify frontBlock_ fun b => { b with localTail := tail },
        .reloadFront frontBlock_ tail)
  | .reloadFront frontBlock_ blockTail =>
      let blockFront := (q.block frontBlock_).front
      some (q, if blockFront ≠ blockTail then .take frontBlock_ blockFront
        else .loadNext frontBlock_)
  | .loadNext frontBlock_ => some (q, .loadNextFront (q.block frontBlock_).next)
  | .loadNextFront nextBlock => some (q, .loadNextTail nextBlock (q.block nextBlock).front)
  | .loadNextTail nextBlock nextBlockFront =>
      let nextBlockTail := (q.block nextBlock).tail
      some (q.modify nextBlock fun b => { b with localTail := nextBlockTail },
        if nextBlockFront ≠ nextBlockTail then .storeFrontBlock nextBlock nextBlockFront
        else .broken)
  | .storeFrontBlock nextBlock nextBlockFront =>
      some ({ q with frontBlock := nextBlock }, .take nextBlock nextBlockFront)
  | .take frontBlock_ blockFront =>
      match (q.block frontBlock_).data blockFront with
      | some x => some (q.modify frontBlock_ fun b =>
          { b with data := Function.update b.data blockFront none },
          .storeFront frontBlock_ blockFront x)
      | none => some (q, .broken)
  | .storeFront frontBlock_ blockFront x =>
      some (q.modify frontBlock_ fun b =>
        { b with front := (blockFront + 1) &&& b.sizeMask }, .dequeued (some x))
  | _ => none

/-- One access of `size_approx`.  A `size_t` has 64 bits. -/
def sizeApprox (q : ReaderWriterQueue α) : DequeuePc α → Option (DequeuePc α)
  | .countFrontBlock => some (.countFront q.frontBlock q.frontBlock 0)
  | .countFront frontBlock_ block result =>
      some (.countTail frontBlock_ block (q.block block).front result)
  | .countTail frontBlock_ block blockFront result =>
      let size := ((q.block block).tail + 2 ^ 64 - blockFront) % 2 ^ 64 &&&
        (q.block block).sizeMask
      some (.countNext frontBlock_ block ((result + size) % 2 ^ 64))
  | .countNext frontBlock_ block result =>
      let next := (q.block block).next
      some (if next ≠ frontBlock_ then .countFront frontBlock_ next result else .counted result)
  | _ => none

end ReaderWriterQueue

/-! ## Construction -/

/-- `ceilToPow2`, on 64-bit words. -/
def ceilToPow2 (x : Nat) : Nat :=
  let x := x - 1
  let x := x ||| x >>> 1
  let x := x ||| x >>> 2
  let x := x ||| x >>> 4
  -- for (size_t i = 1; i < sizeof(size_t); i <<= 1)
  let x := [1, 2, 4].foldl (fun x i => x ||| x >>> (i <<< 3)) x
  x + 1

/-- `MAX_BLOCK_SIZE` as the template has it by default. -/
def maxBlockSize : Nat := 512

/-- `make_block`.  The pointer `next` is null until the block is linked. -/
def makeBlock (capacity : Nat) : Block α where
  front := 0
  localTail := 0
  tail := 0
  localFront := 0
  next := 0
  data := fun _ => none
  sizeMask := capacity - 1

/-- One round of the constructor's loop: block `i` is made, linked behind the one before it,
and linked to the first. -/
def linkBlock (capacity : Nat) (block : Nat → Block α) (i : Nat) : Nat → Block α :=
  let block := Function.update block i (makeBlock capacity)
  let block := if i = 0 then block
    else Function.update block (i - 1) { block (i - 1) with next := i }
  Function.update block i { block i with next := 0 }

/-- How many blocks the constructor makes, and of what size. -/
def blockLayout (size : Nat) : Nat × Nat :=
  let largestBlockSize := ceilToPow2 (size + 1)
  if largestBlockSize > maxBlockSize * 2 then
    ((size + maxBlockSize * 2 - 3) / (maxBlockSize - 1), maxBlockSize)
  else (1, largestBlockSize)

/-- The constructor of `ReaderWriterQueue`. -/
def ReaderWriterQueue.make (size : Nat) : ReaderWriterQueue α where
  block := (List.range (blockLayout size).1).foldl (linkBlock (blockLayout size).2)
    fun _ => makeBlock (blockLayout size).2
  frontBlock := 0
  tailBlock := 0

/-! ## The two threads -/

/-- A queue between its producer and its consumer.  `accepted` and `received` are histories
that neither of them reads: the elements of the calls of `try_enqueue` that returned true,
and those that calls of `try_dequeue` returned. -/
structure Handoff (α : Type*) where
  queue : ReaderWriterQueue α
  enqueuer : EnqueuePc α
  dequeuer : DequeuePc α
  accepted : List α
  received : List α

inductive HandoffAction (α : Type*)
  /-- The producer calls `try_enqueue`. -/
  | tryEnqueue (element : α)
  /-- The next access of the call. -/
  | enqueue
  | tryDequeue
  | dequeue
  | sizeApprox
  | count
  deriving DecidableEq, Repr

/-- What a return of `try_enqueue` adds to the elements accepted. -/
def EnqueuePc.accepted : EnqueuePc α → List α
  | .returned x true => [x]
  | _ => []

/-- What a return of `try_dequeue` adds to the elements received. -/
def DequeuePc.received : DequeuePc α → List α
  | .dequeued (some x) => [x]
  | _ => []

/-- An access of `try_enqueue`. -/
def HandoffAction.isEnqueue : HandoffAction α → Bool
  | .enqueue => true
  | _ => false

/-- An access of `try_dequeue`. -/
def HandoffAction.isDequeue : HandoffAction α → Bool
  | .dequeue => true
  | _ => false

namespace Handoff

/-- A new queue for `size` elements. -/
def start (size : Nat) : Handoff α where
  queue := .make size
  enqueuer := .ready
  dequeuer := .ready
  accepted := []
  received := []

/-- One step of either thread. -/
def step (s : Handoff α) : HandoffAction α → Option (Handoff α)
  | .tryEnqueue x =>
      if s.enqueuer.idle then some { s with enqueuer := .loadTailBlock x } else none
  | .enqueue => (s.queue.innerEnqueue s.enqueuer).map fun r =>
      { s with queue := r.1, enqueuer := r.2, accepted := s.accepted ++ r.2.accepted }
  | .tryDequeue =>
      if s.dequeuer.idle then some { s with dequeuer := .loadFrontBlock } else none
  | .dequeue => (s.queue.tryDequeue s.dequeuer).map fun r =>
      { s with queue := r.1, dequeuer := r.2, received := s.received ++ r.2.received }
  | .sizeApprox =>
      if s.dequeuer.idle then some { s with dequeuer := .countFrontBlock } else none
  | .count => (s.queue.sizeApprox s.dequeuer).map fun pc => { s with dequeuer := pc }

end Handoff

end Debe
