import Debe.Lib.LittleEndian
import Mathlib.Tactic.Linarith

/-!
# Frames over an SSL connection

`SendData` writes the four bytes of the frame's size and then the frame, and
`ReceiveData` reads them.  Both move the frame in a loop that adds what
`SSL_write` or `SSL_read` returns to a signed counter and passes the counter as
the offset of the next call.  Only the return value of the first call is looked
at.  What the loops compare their counter with differs: the sender's size is
unsigned, so that a counter of `-1` counts as larger than any size, and the
receiver's length is signed, so that a size from `2 ^ 31` on counts as negative.

What the connection does with each call is an infinite sequence of answers, and
the state after any number of calls is a function of it.
-/

namespace Debe

open LittleEndian

/-- Conversion to `int`. -/
@[irreducible] def toInt (x : Int) : Int := Int.bmod x (2 ^ 32)

theorem toInt_eq {x : Int} (hle : -2 ^ 31 ≤ x) (hlt : x < 2 ^ 31) : toInt x = x := by
  rw [toInt]
  exact Int.bmod_eq_of_le (by omega) (by omega)

/-- A number too large for an `int` becomes negative. -/
theorem toInt_neg {x : Int} (hle : 2 ^ 31 ≤ x) (hlt : x < 2 ^ 32) : toInt x < 0 := by
  have hsub : toInt x = toInt (x - 2 ^ 32) := by
    rw [toInt, toInt, ← Int.sub_bmod_right]
    rfl
  rw [hsub, toInt_eq (by omega) (by omega)]
  omega

/-- The connection's answer to a call: `-1`, `0`, or some bytes moved. -/
inductive SslReturn
  | fails
  | zero
  /-- `n + 1` bytes, or as many as were asked for. -/
  | moves (n : Nat)
  deriving DecidableEq, Repr

/-- The return value of a call that asks for `num` bytes. -/
def SslReturn.ret (num : Int) : SslReturn → Int
  | .fails => -1
  | .zero => 0
  | .moves n => if num ≤ 0 then -1 else min (n + 1 : Int) num

/-- A call of the loop: offset in the buffer, bytes asked for, return value. -/
structure SslCall where
  offset : Int
  num : Int
  ret : Int
  deriving DecidableEq, Repr

inductive TransferPc
  | header
  /-- In the loop, with the counter `sendedSize` or `receivedSize`. -/
  | loop (moved : Int)
  | returned (result : Bool)
  deriving DecidableEq, Repr

/-- A call of `SendData` or `ReceiveData` under way. -/
structure Transfer where
  pc : TransferPc
  /-- `writeStatus` or `readStatus`. -/
  status : Int
  /-- `dataSize` or `len`. -/
  len : Int
  calls : List SslCall
  deriving DecidableEq, Repr

namespace Transfer

def start : Transfer where
  pc := .header
  status := 0
  len := 0
  calls := []

/-- How the two functions differ: what they take for the length when the first
call has moved so many bytes, and the test of the loop. -/
structure Direction where
  lenOf : Int → Int
  more : Int → Int → Bool

/-- Where the loop test leads. -/
def Direction.test (d : Direction) (len moved : Int) : TransferPc :=
  if d.more len moved then .loop moved else .returned true

/-- The next call and what follows from its answer.  The difference that is
passed as the number of bytes is an `int`. -/
def step (d : Direction) (t : Transfer) (r : SslReturn) : Transfer :=
  match t.pc with
  | .header =>
      let status := r.ret 4
      if status ≤ 0 then { t with pc := .returned false, status := status }
      else { t with pc := d.test (d.lenOf status) 0, status := status, len := d.lenOf status }
  | .loop moved =>
      let num := toInt (t.len - moved)
      let ret := r.ret num
      { t with pc := d.test t.len (moved + ret), calls := t.calls ++ [⟨moved, num, ret⟩] }
  | .returned _ => t

/-- The state after `n` calls. -/
def run (d : Direction) (t : Transfer) (answers : Nat → SslReturn) : Nat → Transfer
  | 0 => t
  | n+1 => run d (t.step d (answers 0)) (fun k => answers (k + 1)) n

end Transfer

/-- A frame: `memory 0`, `memory 1`, ... up to its size.  What `memory` has around
it stands around the sender's buffer, or behind the frame on the connection. -/
structure Frame where
  memory : Int → UInt8
  dataSize : Nat
  dataSize_lt : dataSize < 2 ^ 32

namespace Frame

open Transfer

def bytes (f : Frame) (offset : Int) (n : Nat) : List UInt8 :=
  (List.range n).map fun i : Nat => f.memory (offset + i)

/-- The bytes of the frame. -/
def payload (f : Frame) : List UInt8 := f.bytes 0 f.dataSize

/-- `SendData`.  The counter is compared as an unsigned number. -/
def sendData (f : Frame) : Direction where
  lenOf := fun _ => f.dataSize
  more := fun len moved => decide (moved % 2 ^ 32 < len)

/-- `len` when so many of its bytes have been read over the initial zero. -/
def lenRead (f : Frame) (status : Int) : Int :=
  toInt (decode ((encode 4 f.dataSize).take status.toNat))

/-- `ReceiveData`. -/
def receiveData (f : Frame) : Direction where
  lenOf := f.lenRead
  more := fun len moved => decide (moved < len)

theorem sendData_lenOf (f : Frame) (status : Int) : f.sendData.lenOf status = f.dataSize := rfl

theorem receiveData_lenOf (f : Frame) (status : Int) :
    f.receiveData.lenOf status = f.lenRead status := rfl

theorem receiveData_more (f : Frame) (len moved : Int) :
    f.receiveData.more len moved = decide (moved < len) := rfl

/-- What a call of `SendData` has put on the connection. -/
def sent (f : Frame) (t : Transfer) : List UInt8 :=
  (encode 4 f.dataSize).take t.status.toNat ++
    t.calls.flatMap fun c => f.bytes c.offset c.ret.toNat

/-- What a call of `ReceiveData` finds on the connection. -/
def stream (f : Frame) (i : Nat) : UInt8 :=
  (encode 4 f.dataSize)[i]?.getD (f.memory (i - 4))

/-- The receiver's buffer and how far the connection has been read. -/
structure Buffer where
  consumed : Nat
  memory : Int → UInt8

/-- The effect of one call of the loop. -/
def Buffer.read (f : Frame) (b : Buffer) (c : SslCall) : Buffer where
  consumed := b.consumed + c.ret.toNat
  memory := fun i =>
    if c.offset ≤ i ∧ i < c.offset + c.ret.toNat then
      f.stream (b.consumed + (i - c.offset).toNat)
    else b.memory i

/-- The buffer behind `data` after the calls, and before them. -/
def received (f : Frame) (before : Int → UInt8) (t : Transfer) : Buffer :=
  t.calls.foldl (Buffer.read f) ⟨t.status.toNat, before⟩

end Frame

namespace Transfer

/-! ## The calls of a loop that meets no failure -/

/-- The loop has moved `m` of `len` bytes, each call taking up where the one before
it ended. -/
inductive Contiguous (len : Nat) : Nat → List SslCall → Prop
  | nil : Contiguous len 0 []
  | snoc {m a : Nat} {calls : List SslCall} (h : Contiguous len m calls) (hpos : 0 < a)
      (hle : m + a ≤ len) : Contiguous len (m + a) (calls ++ [⟨m, (len : Int) - m, a⟩])

theorem Contiguous.ret_pos {len m : Nat} {calls : List SslCall} (h : Contiguous len m calls) :
    ∀ c ∈ calls, 0 < c.ret := by
  induction h with
  | nil => nofun
  | snoc h hpos hle ih =>
      intro c hc
      rcases List.mem_append.mp hc with hc | hc
      · exact ih c hc
      · rw [List.mem_singleton.mp hc]
        exact Int.natCast_pos.mpr hpos

theorem Contiguous.inside {len m : Nat} {calls : List SslCall} (h : Contiguous len m calls) :
    ∀ c ∈ calls, 0 ≤ c.offset ∧ c.offset + c.num ≤ len := by
  induction h with
  | nil => nofun
  | snoc h hpos hle ih =>
      intro c hc
      rcases List.mem_append.mp hc with hc | hc
      · exact ih c hc
      · rw [List.mem_singleton.mp hc]
        constructor <;> dsimp only <;> omega

/-- The bytes that such calls take from a buffer. -/
theorem Contiguous.bytes {len m : Nat} {calls : List SslCall} (h : Contiguous len m calls)
    (f : Frame) : (calls.flatMap fun c => f.bytes c.offset c.ret.toNat) = f.bytes 0 m := by
  induction h with
  | nil => rfl
  | @snoc m a calls h hpos hle ih =>
      rw [List.flatMap_append, ih]
      simp [Frame.bytes, List.range_add, Function.comp_def]

/-- What such calls leave in a buffer when the connection had been read up to
`consumed`. -/
theorem Contiguous.read {len m : Nat} {calls : List SslCall} (h : Contiguous len m calls)
    (f : Frame) (consumed : Nat) (before : Int → UInt8) :
    (calls.foldl (Frame.Buffer.read f) ⟨consumed, before⟩).consumed = consumed + m ∧
    ∀ i < m, (calls.foldl (Frame.Buffer.read f) ⟨consumed, before⟩).memory i =
      f.stream (consumed + i) := by
  induction h with
  | nil => simp
  | @snoc m a calls h hpos hle ih =>
      obtain ⟨hconsumed, hmemory⟩ := ih
      rw [List.foldl_append, List.foldl_cons, List.foldl_nil]
      constructor
      · simp [Frame.Buffer.read, hconsumed, Nat.add_assoc]
      · intro i hi
        by_cases hlt : i < m
        · have hnot : ¬ ((m : Int) ≤ i ∧ (i : Int) < m + ((a : Int)).toNat) := by omega
          rw [Frame.Buffer.read]
          dsimp only
          rw [if_neg hnot, hmemory i hlt]
        · have hin : (m : Int) ≤ i ∧ (i : Int) < m + ((a : Int)).toNat := by omega
          rw [Frame.Buffer.read]
          dsimp only
          rw [if_pos hin, hconsumed]
          congr 1
          omega

/-! ## One call of the loop -/

/-- The loop test compares with `len` as long as the counter does not pass it. -/
def Direction.Fits (d : Direction) (len : Nat) : Prop :=
  ∀ m : Nat, m ≤ len → d.more len m = decide (m < len)

/-- The loop stands at `m` of `len` bytes after contiguous calls. -/
structure At (len m : Nat) (t : Transfer) : Prop where
  pc : t.pc = .loop m
  len_eq : t.len = len
  lt : m < len
  calls : Contiguous len m t.calls

variable {d : Direction} {len m n : Nat} {t : Transfer} {r : SslReturn}
  {answers : Nat → SslReturn}

/-- The number of bytes asked for. -/
theorem At.num (h : At len m t) (hlen : len < 2 ^ 31) :
    toInt (t.len - m) = (len : Int) - m := by
  have hlt := h.lt
  rw [h.len_eq]
  exact toInt_eq (by omega) (by omega)

/-- A call that moves bytes brings the loop forward, or to its end. -/
theorem At.step_moves (h : At len m t) (hfit : d.Fits len) (hlen : len < 2 ^ 31) :
    (∃ a, At len a (t.step d (.moves n)) ∧ len - a = len - m - (n + 1) ∧ len - a < len - m) ∨
    ((t.step d (.moves n)).pc = .returned true ∧ (t.step d (.moves n)).len = len ∧
      Contiguous len len (t.step d (.moves n)).calls ∧ len - m - (n + 1) = 0) := by
  have hlt := h.lt
  obtain ⟨a, ha⟩ : ∃ a, a = min (n + 1) (len - m) := ⟨_, rfl⟩
  have hret : (SslReturn.moves n).ret ((len : Int) - m) = a := by
    rw [SslReturn.ret, if_neg (by omega)]
    omega
  have hcalls : Contiguous len (m + a) (t.calls ++ [⟨m, (len : Int) - m, a⟩]) :=
    h.calls.snoc (by omega) (by omega)
  have hmore := hfit (m + a) (by omega)
  have hstep : t.step d (.moves n) =
      { t with
        pc := d.test len ((m + a : Nat) : Int)
        calls := t.calls ++ [⟨m, (len : Int) - m, a⟩] } := by
    rw [step, h.pc]
    dsimp only
    rw [h.num hlen, hret, h.len_eq, Nat.cast_add]
  rw [hstep]
  by_cases hend : m + a < len
  · refine .inl ⟨m + a, ⟨?_, h.len_eq, hend, hcalls⟩, by omega, by omega⟩
    dsimp only
    rw [Direction.test, hmore, if_pos (decide_eq_true hend)]
  · have hall : m + a = len := by omega
    refine .inr ⟨?_, h.len_eq, hall ▸ hcalls, by omega⟩
    dsimp only
    rw [Direction.test, hmore, if_neg (by simpa using hend)]

/-! ## Whole calls -/

/-- The loop has moved all `len` bytes and the function has returned. -/
structure Finished (len : Nat) (t : Transfer) : Prop where
  pc : t.pc = .returned true
  len_eq : t.len = len
  calls : Contiguous len len t.calls

/-- What is asked of the state after any number of calls: `true` only for a
complete transfer, no further call after one that moved nothing, and no call
beyond the frame. -/
structure Reliable (size : Nat) (complete : Transfer → Prop) (t : Transfer) : Prop where
  complete : t.pc = .returned true → complete t
  header : t.pc ≠ .header → t.status ≤ 0 → t.pc = .returned false ∧ t.calls = []
  stops : ∀ c ∈ t.calls, c.ret ≤ 0 → t.pc = .returned false ∧ t.calls.getLast? = some c
  inside : ∀ c ∈ t.calls, 0 ≤ c.offset ∧ c.offset + c.num ≤ size

/-- The answers move bytes until `left` of them are moved. -/
inductive Delivers : Nat → (Nat → SslReturn) → Prop
  | done (answers : Nat → SslReturn) : Delivers 0 answers
  | more {left n : Nat} {answers : Nat → SslReturn} (h : answers 0 = .moves n)
      (rest : Delivers (left - (n + 1)) fun k => answers (k + 1)) : Delivers left answers

/-- Either the first call fails, or it moves the whole size and the later ones
move bytes until the frame is through.  Its size is one that an `int` can hold. -/
def Clean (size : Nat) (answers : Nat → SslReturn) : Prop :=
  (answers 0).ret 4 ≤ 0 ∨
    (answers 0).ret 4 = 4 ∧ size < 2 ^ 31 ∧ Delivers size fun k => answers (k + 1)

theorem run_returned {b : Bool} (h : t.pc = .returned b) : t.run d answers n = t := by
  induction n generalizing answers with
  | zero => rfl
  | succ n ih =>
      have hstep : t.step d (answers 0) = t := by rw [step, h]
      rw [run, hstep, ih]

/-- Only the first call sets `status`, and none returns to it. -/
theorem step_status (h : t.pc ≠ .header) :
    (t.step d r).status = t.status ∧ (t.step d r).pc ≠ .header := by
  cases hpc : t.pc with
  | header => exact absurd hpc h
  | loop moved =>
      rw [step, hpc]
      dsimp only [Direction.test]
      refine ⟨rfl, ?_⟩
      split <;> nofun
  | returned b =>
      rw [step, hpc]
      exact ⟨rfl, h⟩

theorem run_status (h : t.pc ≠ .header) : (t.run d answers n).status = t.status := by
  induction n generalizing t answers with
  | zero => rfl
  | succ n ih =>
      obtain ⟨hstatus, hpc⟩ := step_status (d := d) (r := answers 0) h
      rw [run, ih hpc, hstatus]

/-- The loop itself never gives up. -/
theorem step_loop_ne_false {moved : Int} (h : t.pc = .loop moved) :
    (t.step d r).pc ≠ .returned false := by
  rw [step, h]
  dsimp only [Direction.test]
  split <;> nofun

/-- Every call of the loop is on record. -/
theorem mem_step_calls {moved : Int} (h : t.pc = .loop moved) :
    (⟨moved, toInt (t.len - moved), r.ret (toInt (t.len - moved))⟩ :
      SslCall) ∈ (t.step d r).calls := by
  rw [step, h]
  exact List.mem_append_right _ List.mem_cons_self

/-- Answers that deliver keep the loop on its way until it has finished. -/
theorem At.run_delivers (h : At len m t) (hfit : d.Fits len) (hlen : len < 2 ^ 31)
    (hdel : Delivers (len - m) answers) (n : Nat) :
    (∃ m', At len m' (t.run d answers n)) ∨ Finished len (t.run d answers n) := by
  induction n generalizing t m answers with
  | zero => exact .inl ⟨m, h⟩
  | succ n ih =>
      have hlt := h.lt
      generalize hleft' : len - m = left at hdel
      cases hdel with
      | done => omega
      | @more _ k _ hmoves hrest =>
          subst hleft'
          rw [run, hmoves]
          rcases h.step_moves (n := k) hfit hlen with ⟨a, hat, hleft, -⟩ | ⟨hpc, hlen', hcalls, -⟩
          · exact ih hat (hleft ▸ hrest)
          · rw [run_returned hpc]
            exact .inr ⟨hpc, hlen', hcalls⟩

/-- A loop in which no call goes on after a failure was given answers that
deliver, and finishes. -/
theorem At.delivers (h : At len m t) (hfit : d.Fits len) (hlen : len < 2 ^ 31)
    (hstops : ∀ n, ∀ c ∈ (t.run d answers n).calls, c.ret ≤ 0 →
      (t.run d answers n).pc = .returned false) :
    Delivers (len - m) answers ∧ ∃ n, Finished len (t.run d answers n) := by
  obtain ⟨left, hleft⟩ : ∃ left, left = len - m := ⟨_, rfl⟩
  induction left using Nat.strong_induction_on generalizing t m answers with
  | h left ih =>
      have hpos : 0 < (answers 0).ret (toInt (t.len - m)) := by
        refine not_le.mp fun hle => ?_
        exact step_loop_ne_false h.pc (hstops 1 _ (mem_step_calls h.pc) hle)
      cases hans : answers 0 with
      | fails =>
          rw [hans, SslReturn.ret] at hpos
          omega
      | zero =>
          rw [hans, SslReturn.ret] at hpos
          omega
      | moves k =>
          have hrun : ∀ n, t.run d answers (n + 1) =
              (t.step d (.moves k)).run d (fun i => answers (i + 1)) n := by
            intro n
            rw [run, hans]
          rcases h.step_moves (n := k) hfit hlen with
            ⟨a, hat, hless, hlt⟩ | ⟨hpc, hlen', hcalls, hnone⟩
          · obtain ⟨hdel, n, hfin⟩ := ih (len - a) (by omega) hat
              (by
                intro n
                rw [← hrun]
                exact hstops (n + 1))
              rfl
            exact ⟨.more hans (hless ▸ hdel), n + 1, by rw [hrun]; exact hfin⟩
          · refine ⟨.more hans (hnone ▸ .done _), 1, ?_⟩
            rw [hrun]
            exact ⟨hpc, hlen', hcalls⟩

/-! ## The first call -/

theorem step_start_fails (h : r.ret 4 ≤ 0) :
    start.step d r = ⟨.returned false, r.ret 4, 0, []⟩ := by
  rw [step, start]
  dsimp only
  rw [if_pos h]

theorem step_start (h : 0 < r.ret 4) :
    start.step d r =
      ⟨d.test (d.lenOf (r.ret 4)) 0, r.ret 4, d.lenOf (r.ret 4), []⟩ := by
  rw [step, start]
  dsimp only
  rw [if_neg (not_le.mpr h)]

theorem SslReturn.ret_le (r : SslReturn) : r.ret 4 ≤ 4 := by
  cases r with
  | fails => decide
  | zero => decide
  | moves n =>
      rw [SslReturn.ret, if_neg (by decide)]
      exact min_le_right _ _

/-- With the size read or written, the loop is entered, or there is nothing to
move. -/
theorem after_start (h : 0 < r.ret 4) (hlen : d.lenOf (r.ret 4) = len) (hfit : d.Fits len) :
    At len 0 (start.step d r) ∨ len = 0 ∧ Finished len (start.step d r) := by
  have hmore := hfit 0 (Nat.zero_le _)
  rw [step_start h, hlen]
  by_cases hpos : 0 < len
  · refine .inl ⟨?_, rfl, hpos, .nil⟩
    dsimp only
    rw [Direction.test, show (0 : Int) = ((0 : Nat) : Int) from rfl, hmore,
      if_pos (decide_eq_true hpos)]
  · have hzero : len = 0 := by omega
    subst hzero
    refine .inr ⟨rfl, ?_, rfl, .nil⟩
    dsimp only
    rw [Direction.test, show (0 : Int) = ((0 : Nat) : Int) from rfl, hmore,
      if_neg (by decide)]

theorem run_start_status (h : 0 < (answers 0).ret 4) :
    ((start.step d (answers 0)).run d (fun k => answers (k + 1)) n).status =
      (answers 0).ret 4 := by
  have hpc : (start.step d (answers 0)).pc ≠ .header := by
    rw [step_start h]
    dsimp only [Direction.test]
    split <;> nofun
  rw [run_status hpc, step_start h]

/-- Clean answers make a reliable transfer. -/
theorem reliable_of_clean {size : Nat} {complete : Transfer → Prop} (hclean : Clean size answers)
    (hlen : size < 2 ^ 31 → d.lenOf 4 = size) (hfit : size < 2 ^ 31 → d.Fits size)
    (hcomplete : ∀ t, Finished size t → t.status = 4 → complete t) (n : Nat) :
    Reliable size complete (start.run d answers n) := by
  cases n with
  | zero => exact ⟨nofun, fun h => absurd rfl h, nofun, nofun⟩
  | succ n =>
      rw [run]
      rcases hclean with hfails | ⟨hfull, hsize, hdel⟩
      · rw [step_start_fails hfails, run_returned rfl]
        exact ⟨nofun, fun _ _ => ⟨rfl, rfl⟩, nofun, nofun⟩
      · have hpos : 0 < (answers 0).ret 4 := by omega
        have hstatus := (run_start_status (d := d) (n := n) hpos).trans hfull
        have hend : (∃ m', At size m'
            ((start.step d (answers 0)).run d (fun k => answers (k + 1)) n)) ∨
            Finished size ((start.step d (answers 0)).run d (fun k => answers (k + 1)) n) := by
          rcases after_start hpos (by rw [hfull, hlen hsize]) (hfit hsize) with hat | ⟨-, hfin⟩
          · exact hat.run_delivers (hfit hsize) hsize hdel n
          · rw [run_returned hfin.pc]
            exact .inr hfin
        rcases hend with ⟨m', hat⟩ | hfin
        · refine ⟨fun hpc => ?_, fun _ hle => ?_, fun c hc hle => ?_, hat.calls.inside⟩
          · rw [hat.pc] at hpc
            cases hpc
          · omega
          · have := hat.calls.ret_pos c hc
            omega
        · refine ⟨fun _ => hcomplete _ hfin hstatus, fun _ hle => ?_, fun c hc hle => ?_,
            hfin.calls.inside⟩
          · omega
          · have := hfin.calls.ret_pos c hc
            omega

/-- A reliable transfer past its first call was given answers that deliver, and
has finished after some of them. -/
theorem delivers_of_reliable {size : Nat} {complete : Transfer → Prop}
    (hrel : ∀ n, Reliable size complete (start.run d answers n)) (hpos : 0 < (answers 0).ret 4)
    (hlen : d.lenOf ((answers 0).ret 4) = len) (hlt : len < 2 ^ 31) (hfit : d.Fits len) :
    Delivers len (fun k => answers (k + 1)) ∧
      ∃ t, Finished len t ∧ t.status = (answers 0).ret 4 ∧ complete t := by
  rcases after_start hpos hlen hfit with hat | ⟨hzero, hfin⟩
  · have hstops : ∀ n, ∀ c ∈ ((start.step d (answers 0)).run d (fun k => answers (k + 1)) n).calls,
        c.ret ≤ 0 → ((start.step d (answers 0)).run d (fun k => answers (k + 1)) n).pc =
          .returned false :=
      fun n c hc hle => ((hrel (n + 1)).stops c hc hle).1
    obtain ⟨hdel, n, hfin⟩ := hat.delivers hfit hlt hstops
    exact ⟨hdel, _, hfin, run_start_status hpos, (hrel (n + 1)).complete hfin.pc⟩
  · subst hzero
    exact ⟨.done _, _, hfin, run_start_status (n := 0) hpos, (hrel 1).complete hfin.pc⟩

end Transfer

namespace Frame

open Transfer

variable {f : Frame} {answers : Nat → SslReturn} {len : Nat} {t : Transfer}

@[simp] theorem length_bytes (f : Frame) (offset : Int) (n : Nat) :
    (f.bytes offset n).length = n := by
  simp [bytes]

/-- What `SendData` is for. -/
def Sent (f : Frame) (t : Transfer) : Prop :=
  f.sent t = encode 4 f.dataSize ++ f.payload

/-- What `ReceiveData` is for: the reported size is that of the frame, the buffer
holds the frame, and the connection has been read up to its end. -/
def Received (f : Frame) (before : Int → UInt8) (t : Transfer) : Prop :=
  t.len % 2 ^ 32 = f.dataSize ∧
  (f.received before t).consumed = 4 + f.dataSize ∧
  (List.range f.dataSize).map (fun i : Nat => (f.received before t).memory i) = f.payload

theorem sent_of_finished (h : Transfer.Finished len t) :
    f.sent t = (encode 4 f.dataSize).take t.status.toNat ++ f.bytes 0 len := by
  rw [sent, h.calls.bytes]

theorem sendData_fits (f : Frame) : f.sendData.Fits f.dataSize := by
  intro m hm
  have hlt := f.dataSize_lt
  have hmod : (m : Int) % 2 ^ 32 = m := Int.emod_eq_of_lt (by omega) (by omega)
  simp only [sendData, hmod, Nat.cast_lt]

theorem receiveData_fits (f : Frame) (len : Nat) : f.receiveData.Fits len := by
  intro m _
  simp only [receiveData, Nat.cast_lt]

/-- The length that a receiver takes from the whole size. -/
theorem lenRead_four (f : Frame) : f.lenRead 4 = toInt f.dataSize := by
  have hdecode : decode ((encode 4 f.dataSize).take 4) = f.dataSize := by
    rw [List.take_of_length_le (length_encode _ _).le]
    exact decode_encode_of_lt f.dataSize_lt
  have hnat : Int.toNat 4 = 4 := rfl
  rw [lenRead, hnat, hdecode]

theorem lenOf_receiveData (h : f.dataSize < 2 ^ 31) : f.receiveData.lenOf 4 = f.dataSize := by
  have hint : toInt f.dataSize = f.dataSize := toInt_eq (by omega) (by omega)
  rw [receiveData_lenOf, lenRead_four, hint]

/-- The first bytes of the size make a smaller length. -/
theorem lenRead_partial {status : Int} (hlt : status < 4) :
    ∃ len : Nat, f.lenRead status = len ∧ len ≤ f.dataSize ∧ len < 2 ^ 31 := by
  have hle : decode ((encode 4 f.dataSize).take status.toNat) ≤ f.dataSize := by
    calc decode ((encode 4 f.dataSize).take status.toNat)
        ≤ decode (encode 4 f.dataSize) := decode_take_le _ _
      _ = f.dataSize := decode_encode_of_lt f.dataSize_lt
  have hsmall : decode ((encode 4 f.dataSize).take status.toNat) < 2 ^ 31 := by
    calc decode ((encode 4 f.dataSize).take status.toNat)
        < 256 ^ ((encode 4 f.dataSize).take status.toNat).length := decode_lt _
      _ ≤ 256 ^ 3 := by
          refine Nat.pow_le_pow_right (by decide) ?_
          rw [List.length_take]
          omega
      _ < 2 ^ 31 := by norm_num
  exact ⟨_, toInt_eq (by omega) (by omega), hle, hsmall⟩

/-- No answer moves bytes when a negative number is asked for. -/
theorem ret_nonpos {num : Int} (h : num ≤ 0) (r : SslReturn) : r.ret num ≤ 0 := by
  cases r with
  | fails =>
      rw [SslReturn.ret]
      omega
  | zero => exact le_rfl
  | moves n =>
      rw [SslReturn.ret, if_pos h]
      omega

/-- The first call must have moved the whole size if nothing is missing. -/
theorem status_eq_four {status : Int} (hle : status ≤ 4)
    (h : (encode 4 f.dataSize).take status.toNat ++ f.bytes 0 f.dataSize =
      encode 4 f.dataSize ++ f.payload) : status = 4 := by
  have hlength := congrArg List.length h
  simp only [List.length_append, List.length_take, length_encode, length_bytes, payload] at hlength
  omega

/-- A frame that an `int` cannot measure is reported as sent after one failure. -/
theorem sendData_large {answers : Nat → SslReturn} (h : 2 ^ 31 ≤ f.dataSize)
    (hpos : 0 < (answers 0).ret 4) :
    ¬ Reliable f.dataSize f.Sent (start.run f.sendData answers 2) := by
  intro hrel
  have hlt := f.dataSize_lt
  have hmore := f.sendData_fits 0 (Nat.zero_le _)
  have hpc : (start.step f.sendData (answers 0)).pc = .loop ((0 : Nat) : Int) := by
    rw [step_start hpos]
    dsimp only
    rw [Direction.test, show (0 : Int) = ((0 : Nat) : Int) from rfl,
      sendData_lenOf, hmore,
      if_pos (decide_eq_true (by omega))]
  have hnum : toInt ((start.step f.sendData (answers 0)).len - ((0 : Nat) : Int)) < 0 := by
    rw [step_start hpos, sendData_lenOf]
    exact toInt_neg (by simp; omega) (by simp; omega)
  exact step_loop_ne_false hpc
    (hrel.stops _ (mem_step_calls (r := answers 1) hpc) (ret_nonpos hnum.le _)).1

/-- **`SendData`** is reliable exactly for clean answers. -/
theorem sendData_reliable_iff (f : Frame) (answers : Nat → SslReturn) :
    (∀ n, Reliable f.dataSize f.Sent (start.run f.sendData answers n)) ↔
      Clean f.dataSize answers := by
  constructor
  · intro hrel
    rcases le_or_gt ((answers 0).ret 4) 0 with hfails | hpos
    · exact .inl hfails
    · rcases Nat.lt_or_ge f.dataSize (2 ^ 31) with hlt | hlarge
      · obtain ⟨hdel, t, hfin, hstatus, hsent⟩ :=
          delivers_of_reliable hrel hpos rfl hlt f.sendData_fits
        rw [Sent, sent_of_finished hfin, hstatus] at hsent
        exact .inr ⟨status_eq_four (SslReturn.ret_le _) hsent, hlt, hdel⟩
      · exact absurd (hrel 2) (sendData_large hlarge hpos)
  · intro hclean
    refine reliable_of_clean hclean (fun _ => rfl) (fun _ => f.sendData_fits) ?_
    intro t hfin hstatus
    have hnat : Int.toNat 4 = 4 := rfl
    rw [Sent, sent_of_finished hfin, hstatus, hnat,
      List.take_of_length_le (length_encode _ _).le, payload]

/-! ## The receiver -/

theorem stream_frame (f : Frame) (i : Nat) : f.stream (4 + i) = f.memory i := by
  have hnone : (encode 4 f.dataSize)[4 + i]? = none :=
    List.getElem?_eq_none (by simp)
  rw [stream, hnone, Option.getD_none]
  congr 1
  omega

theorem consumed_of_finished {before : Int → UInt8} (h : Transfer.Finished len t) :
    (f.received before t).consumed = t.status.toNat + len :=
  (h.calls.read f _ before).1

/-- A finished loop behind a whole size has the frame in the buffer. -/
theorem received_of_finished {before : Int → UInt8} (h : Transfer.Finished f.dataSize t)
    (hstatus : t.status = 4) : f.Received before t := by
  have hlt := f.dataSize_lt
  have hnat : t.status.toNat = 4 := by omega
  refine ⟨?_, ?_, ?_⟩
  · rw [h.len_eq]
    exact Int.emod_eq_of_lt (by omega) (by omega)
  · rw [consumed_of_finished h, hnat]
  · rw [payload, bytes]
    apply List.map_congr_left
    intro i hi
    have hmem := (h.calls.read f t.status.toNat before).2 i (List.mem_range.mp hi)
    rw [hnat, stream_frame] at hmem
    rw [received, hnat]
    simpa using hmem

/-- A frame that an `int` cannot measure is reported as received unread. -/
theorem receiveData_large {before : Int → UInt8} {answers : Nat → SslReturn}
    (h : 2 ^ 31 ≤ f.dataSize) (hfull : (answers 0).ret 4 = 4) :
    ¬ Reliable f.dataSize (f.Received before) (start.run f.receiveData answers 1) := by
  intro hrel
  have hlt := f.dataSize_lt
  have hneg : f.receiveData.lenOf 4 < 0 := by
    rw [receiveData_lenOf, lenRead_four]
    exact toInt_neg (by omega) (by omega)
  have hstep : start.run f.receiveData answers 1 =
      ⟨.returned true, 4, f.receiveData.lenOf 4, []⟩ := by
    have hmore : f.receiveData.more (f.receiveData.lenOf 4) 0 = false := by
      rw [receiveData_more]
      exact decide_eq_false (not_lt.mpr hneg.le)
    rw [run, run, step_start (by omega), hfull, Direction.test, hmore]
    rfl
  rw [hstep] at hrel
  have hconsumed := (hrel.complete rfl).2.1
  have hfour : (f.received before ⟨.returned true, 4, f.receiveData.lenOf 4, []⟩).consumed = 4 :=
    rfl
  omega

/-- **`ReceiveData`** is reliable exactly for clean answers. -/
theorem receiveData_reliable_iff (f : Frame) (before : Int → UInt8)
    (answers : Nat → SslReturn) :
    (∀ n, Reliable f.dataSize (f.Received before) (start.run f.receiveData answers n)) ↔
      Clean f.dataSize answers := by
  constructor
  · intro hrel
    rcases le_or_gt ((answers 0).ret 4) 0 with hfails | hpos
    · exact .inl hfails
    · have hle := SslReturn.ret_le (answers 0)
      rcases lt_or_eq_of_le hle with hpart | hfull
      · -- the rest of the size is taken for the frame's first bytes
        obtain ⟨len, hlen, hlesize, hlt⟩ := lenRead_partial (f := f) hpart
        obtain ⟨-, t, hfin, hstatus, -, hconsumed, -⟩ :=
          delivers_of_reliable hrel hpos ((f.receiveData_lenOf _).trans hlen) hlt
            (f.receiveData_fits len)
        rw [consumed_of_finished hfin, hstatus] at hconsumed
        omega
      · rcases Nat.lt_or_ge f.dataSize (2 ^ 31) with hlt | hlarge
        · have hlen : f.receiveData.lenOf ((answers 0).ret 4) = f.dataSize := by
            rw [hfull, lenOf_receiveData hlt]
          exact .inr ⟨hfull, hlt,
            (delivers_of_reliable hrel hpos hlen hlt (f.receiveData_fits _)).1⟩
        · exact absurd (hrel 1) (receiveData_large hlarge hfull)
  · intro hclean
    exact reliable_of_clean hclean lenOf_receiveData (fun _ => f.receiveData_fits _)
      (fun t hfin hstatus => received_of_finished hfin hstatus)

/-- **Framed transport.**  For every frame of a 32-bit size and every sequence of
answers, each of the two functions is reliable after any number of calls if and
only if the answers are clean. -/
theorem framed_transport (f : Frame) (before : Int → UInt8) (answers : Nat → SslReturn) :
    ((∀ n, Reliable f.dataSize f.Sent (start.run f.sendData answers n)) ↔
      Clean f.dataSize answers) ∧
    ((∀ n, Reliable f.dataSize (f.Received before) (start.run f.receiveData answers n)) ↔
      Clean f.dataSize answers) :=
  ⟨f.sendData_reliable_iff answers, f.receiveData_reliable_iff before answers⟩

/-- A frame of one byte. -/
def oneByte : Frame where
  memory := fun _ => 7
  dataSize := 1
  dataSize_lt := by decide

/-- The size goes through, and every later call fails. -/
def failsAfterSize : Nat → SslReturn
  | 0 => .moves 3
  | _ => .fails

/-- With these answers `SendData` returns `true` after sending only the size, and
`ReceiveData` reads to the offset `-1`. -/
theorem framed_transport_one_byte :
    (start.run oneByte.sendData failsAfterSize 2).pc = .returned true ∧
    oneByte.sent (start.run oneByte.sendData failsAfterSize 2) = [1, 0, 0, 0] ∧
    (⟨-1, 2, -1⟩ : SslCall) ∈ (start.run oneByte.receiveData failsAfterSize 3).calls ∧
    (¬ ∀ n, Reliable oneByte.dataSize oneByte.Sent
      (start.run oneByte.sendData failsAfterSize n)) ∧
    ¬ ∀ n, Reliable oneByte.dataSize (oneByte.Received fun _ => 0)
      (start.run oneByte.receiveData failsAfterSize n) := by
  have hsent : (start.run oneByte.sendData failsAfterSize 2).pc = .returned true ∧
      oneByte.sent (start.run oneByte.sendData failsAfterSize 2) = [1, 0, 0, 0] := by
    decide +kernel
  have hread : (⟨-1, 2, -1⟩ : SslCall) ∈
      (start.run oneByte.receiveData failsAfterSize 3).calls := by
    decide +kernel
  refine ⟨hsent.1, hsent.2, hread, ?_, ?_⟩
  · intro hrel
    have hwhole := (hrel 2).complete hsent.1
    rw [Sent, hsent.2] at hwhole
    exact absurd hwhole (by decide +kernel)
  · intro hrel
    exact absurd ((hrel 3).inside _ hread).1 (by decide)

end Frame

end Debe
