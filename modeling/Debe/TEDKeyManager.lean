import Debe.BlindRSA
import Debe.Lib.CountMin

/-!
# The key manager of `TEDDAE`

`TEDKeyManager::Run` counts every short hash of a request in a sketch of four rows, draws a number
between zero and a fifth of its estimated frequency, and overwrites the slot of the short hash
with the hash of short hash, number and secret.  So the seed of a chunk is the same as long as
the chunk is rare, and a frequent chunk gets one of several.

The sketch is set to zero when a client leaves.
-/

namespace Debe

open LittleEndian

/-- `SHORT_HASH_SIZE`. -/
def shortHashSize : Nat := 16

/-- `SKETCH_DEPTH`. -/
def tedSketchDepth : Nat := 2 ^ 2

/-- `SKETCH_WIDTH`. -/
def tedSketchWidth : Nat := 2 ^ 20

/-- `t_`. -/
def tedT : Nat := 5

/-- `globalSecret_`. -/
def tedGlobalSecret : Bytes := List.replicate chunkHashSize 1

/-- What the key manager runs with.  `dis n param` is what a `uniform_int_distribution` over zero
to `param` gives for the `n`-th time. -/
structure TEDSetup where
  crypto : Crypto
  dis : Nat → Nat → Nat
  sendChunkBatchSize : Nat
  dis_le : ∀ n param, dis n param ≤ param

/-- The members of `TEDKeyManager`, and how many numbers `gen_` has given. -/
structure TEDKeyManager where
  sketchTable : Nat → Nat → UInt32
  draws : Nat
  totalKeyGenNum : UInt64

/-- The constructor. -/
def TEDKeyManager.init : TEDKeyManager where
  sketchTable := fun _ _ => 0
  draws := 0
  totalKeyGenNum := 0

/-- A request or a reply. -/
structure KeyGenMsg where
  messageType : KeyMsgType
  currentItemNum : UInt32
  data : Bytes
  deriving DecidableEq, Repr

/-- `shortHash[j] % SKETCH_WIDTH`. -/
def tedPos (shortHash : Bytes) (j : Nat) : Nat :=
  decode ((shortHash.drop (4 * j)).take 4) % tedSketchWidth

/-- The loop body over the rows: count, and keep the least counter. -/
def countRow (shortHash : Bytes) (s : (Nat → Nat → UInt32) × UInt32) (j : Nat) :
    (Nat → Nat → UInt32) × UInt32 :=
  let pos := tedPos shortHash j
  let sketchTable := Function.update s.1 j (Function.update (s.1 j) pos (s.1 j pos + 1))
  (sketchTable, if sketchTable j pos < s.2 then sketchTable j pos else s.2)

/-- The first rows, with `curFreq` from `UINT32_MAX` down. -/
def countRows (shortHash : Bytes) (sketchTable : Nat → Nat → UInt32) (n : Nat) :
    (Nat → Nat → UInt32) × UInt32 :=
  (List.range n).foldl (countRow shortHash) (sketchTable, 0xFFFFFFFF)

/-- Update the sketch: the sketch and `curFreq`. -/
def countShortHash (shortHash : Bytes) (sketchTable : Nat → Nat → UInt32) :
    (Nat → Nat → UInt32) × UInt32 :=
  countRows shortHash sketchTable tedSketchDepth

/-- The seed for a short hash and a drawn number. -/
def tedSeed (c : Crypto) (shortHash : Bytes) (param : Nat) : Bytes :=
  c.generateHash (shortHash ++ encode 4 param ++ tedGlobalSecret)

variable (p : TEDSetup)

/-- The loop body over the short hashes of a request; the offset is computed in 32 bits. -/
def answerSlot (s : TEDKeyManager × Bytes) (i : Nat) : Except Fault (TEDKeyManager × Bytes) := do
  let shortHash ← inRange (Buffer.read s.2 (i * chunkHashSize % 2 ^ 32) shortHashSize)
  let counted := countShortHash shortHash s.1.sketchTable
  let param := counted.2.toNat / tedT
  let param := p.dis s.1.draws param
  let dataBuffer ← inRange (Buffer.write s.2 (i * chunkHashSize % 2 ^ 32)
    (tedSeed p.crypto shortHash param))
  return ({ s.1 with sketchTable := counted.1, draws := s.1.draws + 1 }, dataBuffer)

/-- Perform the frequency counting for the short hashes in a buffer. -/
def answerSlots (recvShortHashNum : Nat) (s : TEDKeyManager × Bytes) :
    Except Fault (TEDKeyManager × Bytes) :=
  (List.range recvShortHashNum).foldlM (answerSlot p) s

/-- A round of the loop of `Run`, on the members, the buffer and the replies that were sent. -/
def tedRound (s : (TEDKeyManager × Bytes) × List KeyGenMsg) (recv : KeyGenMsg) :
    Except Fault ((TEDKeyManager × Bytes) × List KeyGenMsg) := do
  let dataBuffer ← inRange (Buffer.write s.1.2 0 recv.data)
  if recv.messageType ≠ .clientKeyGen then
    .error (.exitError "wrong key gen req type.")
  else
    let recvShortHashNum := recv.currentItemNum
    let r ← answerSlots p recvShortHashNum.toNat (s.1.1, dataBuffer)
    let dataSize := recvShortHashNum * UInt32.ofNat chunkHashSize
    let reply : KeyGenMsg := {
      messageType := .keyManagerKeyGenReply
      currentItemNum := recvShortHashNum
      data := r.2.take dataSize.toNat }
    return (({ r.1 with
      totalKeyGenNum := r.1.totalKeyGenNum + UInt64.ofNat recvShortHashNum.toNat }, r.2),
      s.2 ++ [reply])

/-- `TEDKeyManager::Run` for a client that sends some messages and leaves. -/
def tedRun (junk : Nat → UInt8) (km : TEDKeyManager) (recvs : List KeyGenMsg) :
    Except Fault (TEDKeyManager × List KeyGenMsg) := do
  let recvBuf := (List.range (p.sendChunkBatchSize * chunkHashSize)).map junk
  let r ← recvs.foldlM (tedRound p) ((km, recvBuf), [])
  return ({ r.1.1 with sketchTable := fun _ _ => 0 }, r.2)

/-- Clients one after another: the members and what every client got. -/
def tedClients (junk : Nat → UInt8) (clients : List (List KeyGenMsg)) :
    Except Fault (TEDKeyManager × List (List KeyGenMsg)) :=
  clients.foldlM (fun s recvs => do
    let r ← tedRun p junk s.1 recvs
    return (r.1, s.2 ++ [r.2])) (.init, [])

/-! ## The sketch -/

/-- The cells of a slot are those of its short hash. -/
def slotPos (slot : Bytes) : Nat → Nat := tedPos (slot.take shortHashSize)

/-- The estimated frequency of a slot among some slots. -/
def tedFreq (slots : List Bytes) (slot : Bytes) : Nat :=
  CountMin.least (2 ^ 32 - 1) (fun j => slots.countP fun s => slotPos s j = slotPos slot j)
    (List.range tedSketchDepth)

/-- The sketch has counted the slots. -/
def TableCounts (slots : List Bytes) (sketchTable : Nat → Nat → UInt32) : Prop :=
  ∀ j b, j < tedSketchDepth →
    (sketchTable j b).toNat = slots.countP fun s => slotPos s j = b

variable {slots more : List Bytes} {slot : Bytes} {sketchTable : Nat → Nat → UInt32}

/-- **No frequency is estimated too low.** -/
theorem countP_le_tedFreq (hsmall : slots.length < 2 ^ 32) (slot : Bytes) :
    (slots.countP fun s => s.take shortHashSize = slot.take shortHashSize) ≤
      tedFreq slots slot := by
  refine CountMin.le_least_iff.mpr ⟨?_, fun j _ => ?_⟩
  · have hle := List.countP_le_length (p := fun s : Bytes =>
      s.take shortHashSize = slot.take shortHashSize) (l := slots)
    omega
  · refine List.countP_mono_left fun s _ hs => ?_
    rw [decide_eq_true_eq] at hs ⊢
    exact congrArg (tedPos · j) hs

/-- **More slots** do not lower an estimate. -/
theorem tedFreq_le_append (slots more : List Bytes) (slot : Bytes) :
    tedFreq slots slot ≤ tedFreq (slots ++ more) slot :=
  CountMin.least_mono fun _ _ => by
    rw [List.countP_append]
    exact Nat.le_add_right _ _

/-- Counting a short hash in the first rows. -/
theorem countRows_eq (shortHash : Bytes) (sketchTable : Nat → Nat → UInt32) (n : Nat) :
    (∀ j b, (countRows shortHash sketchTable n).1 j b =
      if j < n ∧ tedPos shortHash j = b then sketchTable j b + 1 else sketchTable j b) ∧
    (countRows shortHash sketchTable n).2.toNat = CountMin.least (2 ^ 32 - 1)
      (fun j => (sketchTable j (tedPos shortHash j) + 1).toNat) (List.range n) := by
  induction n with
  | zero => exact ⟨fun j b => (if_neg (by omega)).symm, rfl⟩
  | succ n ih =>
      obtain ⟨htable, hfreq⟩ := ih
      have hnext : countRows shortHash sketchTable (n + 1) =
          countRow shortHash (countRows shortHash sketchTable n) n := by
        rw [countRows, List.range_succ, List.foldl_append]
        rfl
      rw [hnext]
      generalize countRows shortHash sketchTable n = r at htable hfreq
      have hcell : r.1 n (tedPos shortHash n) = sketchTable n (tedPos shortHash n) := by
        rw [htable]
        exact if_neg (by omega)
      simp only [countRow, Function.update_self, hcell]
      refine ⟨fun j b => ?_, ?_⟩
      · by_cases hj : j = n
        · subst hj
          rw [Function.update_self]
          by_cases hb : tedPos shortHash j = b
          · subst hb
            rw [Function.update_self, if_pos ⟨Nat.lt_succ_self j, rfl⟩]
          · rw [Function.update_of_ne (Ne.symm hb), htable, if_neg (by omega), if_neg (by omega)]
        · rw [Function.update_of_ne hj, htable]
          by_cases hlt : j < n
          · simp only [hlt, hlt.trans (Nat.lt_succ_self n), true_and]
          · rw [if_neg (by omega), if_neg (by omega)]
      · have hleast : CountMin.least (2 ^ 32 - 1)
            (fun j => (sketchTable j (tedPos shortHash j) + 1).toNat) (List.range (n + 1)) =
          min r.2.toNat (sketchTable n (tedPos shortHash n) + 1).toNat := by
          rw [hfreq, CountMin.least, CountMin.least, List.range_succ, List.foldl_append]
          rfl
        rw [hleast]
        split
        · rename_i hlt
          rw [Nat.min_eq_right (UInt32.lt_iff_toNat_lt.mp hlt).le]
        · rename_i hge
          rw [Nat.min_eq_left (UInt32.le_iff_toNat_le.mp (UInt32.not_lt.mp hge))]

/-- **Counting a slot** in a sketch that does not wrap. -/
theorem TableCounts.count (h : TableCounts slots sketchTable) (hsmall : slots.length + 1 < 2 ^ 32)
    (slot : Bytes) :
    TableCounts (slots ++ [slot])
        (countShortHash (slot.take shortHashSize) sketchTable).1 ∧
      (countShortHash (slot.take shortHashSize) sketchTable).2.toNat =
        tedFreq (slots ++ [slot]) slot := by
  obtain ⟨htable, hfreq⟩ := countRows_eq (slot.take shortHashSize) sketchTable tedSketchDepth
  have hcell : ∀ j b, j < tedSketchDepth → (sketchTable j b + 1).toNat =
      (slots.countP fun s => slotPos s j = b) + 1 := by
    intro j b hj
    have hle := List.countP_le_length (p := fun s => slotPos s j = b) (l := slots)
    rw [UInt32.toNat_add, h j b hj, UInt32.toNat_one, Nat.mod_eq_of_lt (by omega)]
  refine ⟨fun j b hj => ?_, ?_⟩
  · rw [countShortHash, htable, List.countP_append, List.countP_singleton]
    by_cases hb : tedPos (slot.take shortHashSize) j = b
    · have hslot : slotPos slot j = b := hb
      rw [if_pos ⟨hj, hb⟩, hcell j b hj, decide_eq_true hslot, if_pos rfl]
    · have hslot : ¬ slotPos slot j = b := hb
      rw [if_neg fun hboth => hb hboth.2, h j b hj, decide_eq_false hslot]
      rfl
  · rw [countShortHash, hfreq, tedFreq]
    refine CountMin.least_congr fun j hj => ?_
    rw [List.mem_range] at hj
    rw [hcell j _ hj, List.countP_append, List.countP_singleton]
    rw [decide_eq_true rfl, if_pos rfl]
    rfl

/-! ## A request -/

variable {p}

/-- What the slots of the replies are: every one is the seed of its short hash and a number of at
most a fifth of the frequency that is estimated when it is its turn. -/
structure TEDAnswers (p : TEDSetup) (slots answers : List Bytes) : Prop where
  length : answers.length = slots.length
  seed : ∀ i slot, slots[i]? = some slot →
    ∃ param, param ≤ tedFreq (slots.take (i + 1)) slot / tedT ∧
      answers[i]? = some (tedSeed p.crypto (slot.take shortHashSize) param)

theorem TEDAnswers.nil (p : TEDSetup) : TEDAnswers p [] [] := ⟨rfl, by simp⟩

/-- One more slot. -/
theorem TEDAnswers.concat {answers : List Bytes} (h : TEDAnswers p slots answers) {param : Nat}
    (hparam : param ≤ tedFreq (slots ++ [slot]) slot / tedT) :
    TEDAnswers p (slots ++ [slot])
      (answers ++ [tedSeed p.crypto (slot.take shortHashSize) param]) where
  length := by rw [List.length_append, List.length_append, h.length]; rfl
  seed := by
    intro i s hs
    rcases Nat.lt_trichotomy i slots.length with hlt | rfl | hgt
    · rw [List.getElem?_append_left hlt] at hs
      obtain ⟨param, hle, hget⟩ := h.seed i s hs
      rw [List.take_append_of_le_length hlt,
        List.getElem?_append_left (h.length.symm ▸ hlt)]
      exact ⟨param, hle, hget⟩
    · rw [List.getElem?_concat_length] at hs
      obtain rfl := Option.some.inj hs
      refine ⟨param, ?_, ?_⟩
      · rwa [List.take_of_length_le (by simp)]
      · rw [← h.length, List.getElem?_concat_length]
    · rw [List.getElem?_eq_none (by simp; omega)] at hs
      cases hs

theorem length_tedSeed (c : Crypto) (shortHash : Bytes) (param : Nat) :
    (tedSeed c shortHash param).length = chunkHashSize :=
  c.length_generateHash _

/-- **A slot** is answered in its place. -/
theorem answerSlot_ok {km : TEDKeyManager} {done : Bytes} {i : Nat}
    (hdone : done.length = i * chunkHashSize) (hslot : slot.length = chunkHashSize)
    (hi : i * chunkHashSize < 2 ^ 32) (htable : TableCounts slots km.sketchTable)
    (hsmall : slots.length + 1 < 2 ^ 32) (behind : Bytes) :
    ∃ km' param, param ≤ tedFreq (slots ++ [slot]) slot / tedT ∧
      TableCounts (slots ++ [slot]) km'.sketchTable ∧
      answerSlot p (km, done ++ (slot ++ behind)) i =
        .ok (km', done ++ (tedSeed p.crypto (slot.take shortHashSize) param ++ behind)) := by
  obtain ⟨htable', hfreq⟩ := htable.count hsmall slot
  have hshort : (slot.take shortHashSize).length = shortHashSize := by
    rw [List.length_take, hslot]
    rfl
  have hread := Buffer.read_mid done (slot.take shortHashSize)
    (slot.drop shortHashSize ++ behind)
  rw [hshort, ← List.append_assoc (slot.take shortHashSize), List.take_append_drop, hdone] at hread
  have hwrite := Buffer.write_mid done behind (d := tedSeed p.crypto (slot.take shortHashSize)
    (p.dis km.draws (tedFreq (slots ++ [slot]) slot / tedT)))
    ((length_tedSeed _ _ _).trans hslot.symm)
  rw [hdone] at hwrite
  refine ⟨{ km with
    sketchTable := (countShortHash (slot.take shortHashSize) km.sketchTable).1
    draws := km.draws + 1 }, _, p.dis_le km.draws _, htable', ?_⟩
  rw [answerSlot, Nat.mod_eq_of_lt hi, hread]
  refine Loops.bind_eq_ok.mpr ⟨slot.take shortHashSize, rfl, ?_⟩
  dsimp only
  rw [hfreq, hwrite]
  rfl

theorem length_flatten_seeds {seeds : List Bytes}
    (h : ∀ seed ∈ seeds, seed.length = chunkHashSize) :
    seeds.flatten.length = seeds.length * chunkHashSize := by
  rw [← List.flatMap_id]
  exact Blocks.length_flatMap h

/-- The first `n` slots of a request are answered: their seeds are in their places. -/
structure SlotsAnswered (p : TEDSetup) (asked answers request : List Bytes) (behind : Bytes)
    (n : Nat) (reply : List Bytes) (s : TEDKeyManager × Bytes) : Prop where
  seeds : ∀ seed ∈ reply, seed.length = chunkHashSize
  length : reply.length = n
  buffer : s.2 = reply.flatten ++ ((request.drop n).flatten ++ behind)
  table : TableCounts (asked ++ request.take n) s.1.sketchTable
  given : TEDAnswers p (asked ++ request.take n) (answers ++ reply)

/-- The next slot. -/
theorem SlotsAnswered.step {asked answers request reply : List Bytes} {behind : Bytes} {n : Nat}
    {s : TEDKeyManager × Bytes} (h : SlotsAnswered p asked answers request behind n reply s)
    (hrequest : ∀ slot ∈ request, slot.length = chunkHashSize)
    (hbuffer : request.length * chunkHashSize ≤ 2 ^ 32)
    (hsmall : asked.length + request.length < 2 ^ 32) (hlt : n < request.length) :
    ∃ s' seed, answerSlot p s n = .ok s' ∧
      SlotsAnswered p asked answers request behind (n + 1) (reply ++ [seed]) s' := by
  obtain ⟨km, buffer⟩ := s
  have hdone : reply.flatten.length = n * chunkHashSize := by
    rw [length_flatten_seeds h.seeds, h.length]
  have hbound : n * chunkHashSize < 2 ^ 32 :=
    (Nat.mul_lt_mul_of_pos_right hlt (Nat.succ_pos _)).trans_le hbuffer
  have hcount : (asked ++ request.take n).length + 1 < 2 ^ 32 := by
    rw [List.length_append, List.length_take_of_le hlt.le]
    omega
  obtain ⟨km', param, hparam, htable, hstep⟩ := answerSlot_ok (p := p) hdone
    (hrequest _ (List.getElem_mem hlt)) hbound h.table hcount
    ((request.drop (n + 1)).flatten ++ behind)
  have htake : asked ++ request.take (n + 1) = asked ++ request.take n ++ [request[n]] := by
    rw [List.take_succ_eq_append_getElem hlt, List.append_assoc]
  have hbuf : buffer =
      reply.flatten ++ (request[n] ++ ((request.drop (n + 1)).flatten ++ behind)) := by
    rw [← List.append_assoc request[n], ← List.flatten_cons, ← List.drop_eq_getElem_cons hlt]
    exact h.buffer
  rw [← hbuf] at hstep
  refine ⟨_, tedSeed p.crypto (request[n].take shortHashSize) param, hstep,
    { seeds := fun seed hseed => ?_
      length := by rw [List.length_append, h.length, List.length_singleton]
      buffer := by rw [List.flatten_append, List.flatten_singleton, List.append_assoc]
      table := by rwa [htake]
      given := ?_ }⟩
  · rcases List.mem_append.mp hseed with hseed | hseed
    · exact h.seeds seed hseed
    · rw [List.mem_singleton.mp hseed, length_tedSeed]
  · rw [htake, ← List.append_assoc]
    exact h.given.concat hparam

/-- **A request** is answered slot by slot, whatever lies behind it in the buffer. -/
theorem answerSlots_ok (km : TEDKeyManager) {asked answers request : List Bytes}
    (hrequest : ∀ slot ∈ request, slot.length = chunkHashSize)
    (hbuffer : request.length * chunkHashSize ≤ 2 ^ 32)
    (hsmall : asked.length + request.length < 2 ^ 32) (htable : TableCounts asked km.sketchTable)
    (hanswers : TEDAnswers p asked answers) (behind : Bytes) :
    ∃ km' reply, answerSlots p request.length (km, request.flatten ++ behind) =
        .ok (km', reply.flatten ++ behind) ∧
      (∀ seed ∈ reply, seed.length = chunkHashSize) ∧ reply.length = request.length ∧
      TableCounts (asked ++ request) km'.sketchTable ∧
      TEDAnswers p (asked ++ request) (answers ++ reply) := by
  have hstart : SlotsAnswered p asked answers request behind 0 []
      (km, request.flatten ++ behind) :=
    { seeds := by simp
      length := rfl
      buffer := rfl
      table := by rwa [List.take_zero, List.append_nil]
      given := by rwa [List.take_zero, List.append_nil, List.append_nil] }
  obtain ⟨⟨km', buffer⟩, hrun, reply, hend⟩ := Loops.foldlM_range (f := answerSlot p)
    (n := request.length)
    (P := fun n s => ∃ reply, SlotsAnswered p asked answers request behind n reply s)
    ⟨[], hstart⟩ (by
      rintro n s hlt ⟨reply, hs⟩
      obtain ⟨s', seed, hstep, hs'⟩ := hs.step hrequest hbuffer hsmall hlt
      exact ⟨s', hstep, _, hs'⟩)
  obtain ⟨hseeds, hlen, hbuf, htable', hanswers'⟩ := hend
  dsimp only at hbuf
  rw [List.drop_length, List.flatten_nil, List.nil_append] at hbuf
  rw [List.take_length] at htable' hanswers'
  subst hbuf
  exact ⟨km', reply, hrun, hseeds, hlen, htable', hanswers'⟩

/-! ## A client -/

/-- The request of some slots. -/
def tedRequest (slots : List Bytes) : KeyGenMsg where
  messageType := .clientKeyGen
  currentItemNum := UInt32.ofNat slots.length
  data := slots.flatten

/-- The reply of some seeds. -/
def tedReply (seeds : List Bytes) : KeyGenMsg where
  messageType := .keyManagerKeyGenReply
  currentItemNum := UInt32.ofNat seeds.length
  data := seeds.flatten

/-- A request that a client may send: whole slots, and not more than a batch. -/
structure TEDRequest (p : TEDSetup) (request : List Bytes) : Prop where
  slots : ∀ slot ∈ request, slot.length = chunkHashSize
  le : request.length ≤ p.sendChunkBatchSize

/-- **A round.**  The reply has a seed for every slot. -/
theorem tedRound_ok {km : TEDKeyManager} {recvBuf : Bytes} (replies : List KeyGenMsg)
    {asked answers request : List Bytes} (hbatch : p.sendChunkBatchSize * chunkHashSize < 2 ^ 32)
    (hlen : recvBuf.length = p.sendChunkBatchSize * chunkHashSize) (hrequest : TEDRequest p request)
    (hsmall : asked.length + request.length < 2 ^ 32) (htable : TableCounts asked km.sketchTable)
    (hanswers : TEDAnswers p asked answers) :
    ∃ km' recvBuf' seeds, tedRound p ((km, recvBuf), replies) (tedRequest request) =
        .ok ((km', recvBuf'), replies ++ [tedReply seeds]) ∧
      recvBuf'.length = p.sendChunkBatchSize * chunkHashSize ∧ seeds.length = request.length ∧
      TableCounts (asked ++ request) km'.sketchTable ∧
      TEDAnswers p (asked ++ request) (answers ++ seeds) := by
  have hsize := length_flatten_seeds hrequest.slots
  have hmul : request.length * chunkHashSize ≤ p.sendChunkBatchSize * chunkHashSize :=
    Nat.mul_le_mul_right _ hrequest.le
  have hwrite : Buffer.write recvBuf 0 request.flatten =
      some (request.flatten ++ recvBuf.drop request.flatten.length) := by
    rw [Buffer.write, if_pos (by omega), Buffer.overwrite, List.take_zero, List.nil_append,
      Nat.zero_add]
  obtain ⟨km', seeds, hrun, hseeds, hcount, htable', hanswers'⟩ :=
    answerSlots_ok (p := p) km hrequest.slots (hmul.trans hbatch.le) hsmall htable hanswers
      (recvBuf.drop request.flatten.length)
  have hnum : (UInt32.ofNat request.length).toNat = request.length :=
    UInt32.toNat_ofNat_of_lt' (show request.length < 2 ^ 32 by omega)
  have hdata : (UInt32.ofNat request.length * UInt32.ofNat chunkHashSize).toNat =
      seeds.flatten.length := by
    rw [← UInt32.ofNat_mul, UInt32.toNat_ofNat_of_lt' (hmul.trans_lt hbatch),
      length_flatten_seeds hseeds, hcount]
  refine ⟨{ km' with
      totalKeyGenNum := km'.totalKeyGenNum + UInt64.ofNat (UInt32.ofNat request.length).toNat },
    seeds.flatten ++ recvBuf.drop request.flatten.length, seeds, ?_, ?_, hcount, htable',
    hanswers'⟩
  · simp only [tedRound, tedRequest, hwrite, inRange, hnum, hrun, hdata, List.take_left, bind,
      Except.bind, pure, Except.pure, ne_eq, not_true_eq_false, if_false, tedReply, hcount]
  · rw [List.length_append, List.length_drop, length_flatten_seeds hseeds, hcount, hsize, hlen]
    omega

/-- **A client** gets its replies in order, and leaves an empty sketch. -/
theorem tedRun_ok {km : TEDKeyManager} (hbatch : p.sendChunkBatchSize * chunkHashSize < 2 ^ 32)
    (junk : Nat → UInt8) (htable : TableCounts [] km.sketchTable) {requests : List (List Bytes)}
    (hrequests : ∀ request ∈ requests, TEDRequest p request)
    (hsmall : requests.flatten.length < 2 ^ 32) :
    ∃ (km' : TEDKeyManager) (answers : List (List Bytes)),
      tedRun p junk km (requests.map tedRequest) = .ok (km', answers.map tedReply) ∧
      TableCounts [] km'.sketchTable ∧
      answers.map List.length = requests.map List.length ∧
      TEDAnswers p requests.flatten answers.flatten := by
  obtain ⟨⟨⟨km', recvBuf⟩, replies⟩, hrun, answers, -, hreplies, hlens, -, hanswers⟩ :=
    Loops.foldlM_ok (f := fun s request => tedRound p s (tedRequest request)) (l := requests)
      (s := ((km, (List.range (p.sendChunkBatchSize * chunkHashSize)).map junk), []))
      (P := fun pre s => ∃ answers : List (List Bytes),
        s.1.2.length = p.sendChunkBatchSize * chunkHashSize ∧ s.2 = answers.map tedReply ∧
        answers.map List.length = pre.map List.length ∧
        TableCounts pre.flatten s.1.1.sketchTable ∧
        TEDAnswers p pre.flatten answers.flatten)
      ⟨[], by simp, rfl, rfl, htable, TEDAnswers.nil p⟩ (by
      rintro pre request rest ⟨⟨km, recvBuf⟩, replies⟩ rfl
        ⟨answers, hlen, hreplies, hlens, htable, hanswers⟩
      dsimp only at hlen hreplies htable
      have hcount : pre.flatten.length + request.length < 2 ^ 32 := by
        rw [List.flatten_append, List.flatten_cons, List.length_append, List.length_append]
          at hsmall
        omega
      obtain ⟨km', recvBuf', seeds, hstep, hlen', hseeds, htable', hanswers'⟩ :=
        tedRound_ok replies hbatch hlen (hrequests request (by simp)) hcount htable
          hanswers
      have hflat : (pre ++ [request]).flatten = pre.flatten ++ request := by
        rw [List.flatten_append, List.flatten_singleton]
      refine ⟨_, hstep, answers ++ [seeds], hlen', ?_, ?_, ?_, ?_⟩
      · rw [hreplies, List.map_append, List.map_singleton]
      · rw [List.map_append, List.map_append, hlens, List.map_singleton, List.map_singleton,
          hseeds]
      · rw [hflat]
        exact htable'
      · rw [hflat, List.flatten_append, List.flatten_singleton]
        exact hanswers')
  dsimp only at hreplies
  subst hreplies
  refine ⟨{ km' with sketchTable := fun _ _ => 0 }, answers, ?_, fun j b _ => rfl, hlens,
    hanswers⟩
  rw [tedRun, List.foldlM_map]
  simp only [hrun, bind, Except.bind, pure, Except.pure]

/-! ## The seeds of a chunk -/

/-- **Rare short hashes share a seed.** -/
theorem TEDAnswers.rare {answers : List Bytes} (h : TEDAnswers p slots answers) {i : Nat}
    (hi : slots[i]? = some slot) (hrare : tedFreq (slots.take (i + 1)) slot < tedT) :
    answers[i]? = some (tedSeed p.crypto (slot.take shortHashSize) 0) := by
  obtain ⟨param, hparam, hget⟩ := h.seed i slot hi
  rw [Nat.div_eq_of_lt hrare, Nat.le_zero] at hparam
  rwa [hparam] at hget

/-- The seeds of a slot are among those of the numbers up to a fifth of its frequency. -/
theorem TEDAnswers.among {answers : List Bytes} (h : TEDAnswers p slots answers) {i : Nat}
    (hi : slots[i]? = some slot) :
    ∃ param, param ≤ tedFreq slots slot / tedT ∧
      answers[i]? = some (tedSeed p.crypto (slot.take shortHashSize) param) := by
  obtain ⟨param, hparam, hget⟩ := h.seed i slot hi
  refine ⟨param, hparam.trans (Nat.div_le_div_right ?_), hget⟩
  have hmono := tedFreq_le_append (slots.take (i + 1)) (slots.drop (i + 1)) slot
  rwa [List.take_append_drop] at hmono

/-- The seeds that a short hash got. -/
def seedsOf (shortHash : Bytes) (slots answers : List Bytes) : List Bytes :=
  ((slots.zip answers).filter fun e => e.1.take shortHashSize = shortHash).map Prod.snd

/-- Slots with one short hash have one frequency. -/
theorem tedFreq_congr (slots : List Bytes) {slot slot' : Bytes}
    (h : slot.take shortHashSize = slot'.take shortHashSize) :
    tedFreq slots slot = tedFreq slots slot' := by
  unfold tedFreq slotPos
  rw [h]

/-- What is made of the numbers up to `n` is of `n + 1` kinds at most. -/
theorem card_toFinset_le_succ {α : Type} [DecidableEq α] {l : List α} {n : Nat} (f : Nat → α)
    (h : ∀ a ∈ l, ∃ param ≤ n, a = f param) : l.toFinset.card ≤ n + 1 := by
  have hsub : l.toFinset ⊆ (Finset.range (n + 1)).image f := by
    intro a ha
    obtain ⟨param, hparam, rfl⟩ := h a (List.mem_toFinset.mp ha)
    exact Finset.mem_image_of_mem f (Finset.mem_range.mpr (Nat.lt_succ_of_le hparam))
  calc l.toFinset.card ≤ ((Finset.range (n + 1)).image f).card := Finset.card_le_card hsub
    _ ≤ (Finset.range (n + 1)).card := Finset.card_image_le
    _ = n + 1 := Finset.card_range _

/-- **Few seeds.**  A short hash gets one seed more than a fifth of its frequency at most. -/
theorem TEDAnswers.card_seedsOf_le {answers : List Bytes} (h : TEDAnswers p slots answers)
    (slot : Bytes) :
    (seedsOf (slot.take shortHashSize) slots answers).toFinset.card ≤
      tedFreq slots slot / tedT + 1 := by
  refine card_toFinset_le_succ (tedSeed p.crypto (slot.take shortHashSize)) fun seed hseed => ?_
  rw [seedsOf, List.mem_map] at hseed
  obtain ⟨⟨s, seed⟩, hmem, rfl⟩ := hseed
  rw [List.mem_filter, decide_eq_true_eq] at hmem
  obtain ⟨i, hi⟩ := List.mem_iff_getElem?.mp hmem.1
  obtain ⟨hs, hanswer⟩ := List.getElem?_zip_eq_some.mp hi
  obtain ⟨param, hparam, hget⟩ := h.among hs
  rw [hmem.2] at hget
  rw [tedFreq_congr slots hmem.2] at hparam
  exact ⟨param, hparam, Option.some.inj (hanswer.symm.trans hget)⟩

/-- What a client gets: a reply to each request with as many seeds as it has slots, all of them
seeds of their short hashes, the same one as long as the short hash is estimated to be rare, and
never more different ones than a fifth of its frequency and one.  No frequency is estimated too
low. -/
structure ClientServed (p : TEDSetup) (requests : List (List Bytes)) (replies : List KeyGenMsg)
    (answers : List (List Bytes)) : Prop where
  replies : replies = answers.map tedReply
  lengths : answers.map List.length = requests.map List.length
  seeds : TEDAnswers p requests.flatten answers.flatten
  rare : ∀ i slot, requests.flatten[i]? = some slot →
    tedFreq (requests.flatten.take (i + 1)) slot < tedT →
      answers.flatten[i]? = some (tedSeed p.crypto (slot.take shortHashSize) 0)
  few : ∀ slot, (seedsOf (slot.take shortHashSize) requests.flatten answers.flatten).toFinset.card ≤
    tedFreq requests.flatten slot / tedT + 1
  counted : ∀ i slot, requests.flatten[i]? = some slot →
    ((requests.flatten.take (i + 1)).countP fun s =>
      s.take shortHashSize = slot.take shortHashSize) ≤
        tedFreq (requests.flatten.take (i + 1)) slot

/-- **The key manager.**  Clients come one after another, and each sends requests of whole slots,
not more than a batch at once and fewer than `2 ^ 32` in all.  Whatever numbers are drawn, every
client gets its replies, and what it gets depends on its own short hashes only. -/
theorem ted_clients_served (p : TEDSetup) (junk : Nat → UInt8)
    (hbatch : p.sendChunkBatchSize * chunkHashSize < 2 ^ 32)
    (clients : List (List (List Bytes)))
    (hclients : ∀ requests ∈ clients, requests.flatten.length < 2 ^ 32 ∧
      ∀ request ∈ requests, TEDRequest p request) :
    ∃ km replies, tedClients p junk (clients.map (List.map tedRequest)) = .ok (km, replies) ∧
      List.Forall₂ (fun requests got => ∃ answers, ClientServed p requests got answers) clients
        replies := by
  obtain ⟨⟨km, replies⟩, hrun, -, hserved⟩ := Loops.foldlM_ok
    (f := fun s requests => do
      let r ← tedRun p junk s.1 (requests.map tedRequest)
      return (r.1, s.2 ++ [r.2]))
    (l := clients) (s := (TEDKeyManager.init, []))
    (P := fun pre s => TableCounts [] s.1.sketchTable ∧
      List.Forall₂ (fun requests got => ∃ answers, ClientServed p requests got answers) pre s.2)
    ⟨fun j b _ => rfl, .nil⟩ (by
      rintro pre requests rest ⟨km, replies⟩ rfl ⟨htable, hserved⟩
      obtain ⟨hsmall, hrequests⟩ := hclients requests (by simp)
      obtain ⟨km', answers, hstep, htable', hlens, hanswers⟩ :=
        tedRun_ok hbatch junk htable hrequests hsmall
      refine ⟨(km', replies ++ [answers.map tedReply]),
        Loops.bind_eq_ok.mpr ⟨_, hstep, rfl⟩, htable',
        List.rel_append hserved (.cons ⟨answers, ?_⟩ .nil)⟩
      exact
        { replies := rfl
          lengths := hlens
          seeds := hanswers
          rare := fun i slot hi hrare => hanswers.rare hi hrare
          few := hanswers.card_seedsOf_le
          counted := fun i slot _ =>
            countP_le_tedFreq ((List.take_prefix _ _).length_le.trans_lt hsmall) slot })
  refine ⟨km, replies, ?_, hserved⟩
  rw [tedClients, List.foldlM_map]
  exact hrun

/-- A key manager whose numbers are as large as they may be. -/
def smallTED : TEDSetup where
  crypto := maskCrypto
  dis _ param := param
  sendChunkBatchSize := 2
  dis_le _ _ := Nat.le_refl _

/-- The slot of the short hash of sixteen ones. -/
def smallSlot : Bytes := List.replicate chunkHashSize 1

/-- A client asks twice for one short hash, and another one asks again: the seeds are the same. -/
theorem ted_clients_served_small :
    ∃ km replies, tedClients smallTED (fun _ => 0)
        [[tedRequest [smallSlot, smallSlot]], [tedRequest [smallSlot]]] = .ok (km, replies) ∧
      replies.map (List.map (·.data)) =
        [[tedSeed maskCrypto (smallSlot.take 16) 0 ++ tedSeed maskCrypto (smallSlot.take 16) 0],
          [tedSeed maskCrypto (smallSlot.take 16) 0]] := by
  obtain ⟨km, replies, hrun, hserved⟩ := ted_clients_served smallTED (fun _ => 0) (by decide)
    [[[smallSlot, smallSlot]], [[smallSlot]]] (by
      intro requests hrequests
      simp only [List.mem_cons, List.not_mem_nil, or_false] at hrequests
      rcases hrequests with rfl | rfl
      · exact ⟨by decide, fun request hrequest => by
          rw [List.mem_singleton.mp hrequest]
          exact ⟨by decide, by decide⟩⟩
      · exact ⟨by decide, fun request hrequest => by
          rw [List.mem_singleton.mp hrequest]
          exact ⟨by decide, by decide⟩⟩)
  have hdata : (tedClients smallTED (fun _ => 0) [[tedRequest [smallSlot, smallSlot]],
      [tedRequest [smallSlot]]]).toOption.map (fun r => r.2.map (List.map (·.data))) =
        some [[tedSeed maskCrypto (smallSlot.take 16) 0 ++
          tedSeed maskCrypto (smallSlot.take 16) 0],
            [tedSeed maskCrypto (smallSlot.take 16) 0]] := by
    decide +kernel
  have hrun' : tedClients smallTED (fun _ => 0) [[tedRequest [smallSlot, smallSlot]],
      [tedRequest [smallSlot]]] = .ok (km, replies) := hrun
  rw [hrun'] at hdata
  exact ⟨km, replies, hrun', Option.some.inj hdata⟩

end Debe
