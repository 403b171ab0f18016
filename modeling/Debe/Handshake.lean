import Debe.Lib.FileStream
import Debe.Lib.Runs
import Debe.Recipe

/-!
# The restore login

For a restore `ServerOptThread::Run` opens the recipe, starts the thread of
`EnclaveRecvDecoder::Run`, and only then reads the recipe's head from the stream
that the new thread reads the entries from.  On the server nothing orders the two
reads.  The new thread waits for `CLIENT_RESTORE_READY`, which the client sends
when it has the login response, which carries the head; that is all.

Three parties take steps in any order: the server's main thread for the
connection, the decoder thread, and a client that runs `RestoreLogin` and then
`Run`.  The connection is two queues of messages.  Any send or receive can fail,
and the process that sees it exits; an exit of the server ends both its threads.
-/

namespace Debe

open Records

/-- What a restore finds: the recipe file, if `CheckFileStatus` finds one, the
data of the login message, which the server's buffer still holds when the head is
read into it, and `sendRecipeBatchSize_`. -/
structure RestoreRequest where
  file : Option Bytes
  loginData : Bytes
  sendRecipeBatchSize : Nat

inductive ClientMessage
  | loginDownload (data : Bytes)
  | restoreReady
  deriving DecidableEq, Repr

inductive ServerMessage
  | fileNonExist
  /-- `SERVER_LOGIN_RESPONSE` with the recipe head. -/
  | loginResponse (head : Bytes)
  | restoreChunk
  | restoreFinal
  deriving DecidableEq, Repr

/-- The server's main thread.  It holds `recvBuf.dataBuffer`. -/
inductive MainPc
  | recvLogin
  | initClient (dataBuffer : Bytes)
  | spawnDecoder (dataBuffer : Bytes)
  | readHead (dataBuffer : Bytes)
  | sendResponse (dataBuffer : Bytes)
  | join
  | sendNonExist
  | waitClose
  | returned
  | exited
  deriving DecidableEq, Repr

/-- The decoder thread. -/
inductive DecoderPc
  | idle
  | recvReady
  | readBatch
  /-- A batch is read; `eof` is the loop's `end`. -/
  | procBatch (eof : Bool)
  | procTail
  | recvClose
  | returned
  | exited
  deriving DecidableEq, Repr

inductive RetrieverPc
  | sendLogin
  | recvResponse
  | sendReady
  | receiving
  | finished
  | exited
  deriving DecidableEq, Repr

/-- The decoder thread has received `CLIENT_RESTORE_READY`. -/
def DecoderPc.ready : DecoderPc → Bool
  | .idle | .recvReady | .exited => false
  | _ => true

/-- The client has received the login response. -/
def RetrieverPc.answered : RetrieverPc → Bool
  | .sendLogin | .recvResponse | .exited => false
  | _ => true

/-- Who reads from `_recipeReadHandler`. -/
inductive Reader
  | main
  | decoder
  deriving DecidableEq, Repr

/-- One read: by whom, from which position, and what it delivered. -/
structure HandlerRead where
  reader : Reader
  offset : Nat
  data : Bytes
  deriving DecidableEq, Repr

/-- The three parties, the connection, and the history of the stream's reads. -/
structure Handshake where
  main : MainPc
  decoder : DecoderPc
  client : RetrieverPc
  /-- `fileRecipeHead_` of the client. -/
  fileRecipeHead : Option Bytes
  recipeReadHandler : InStream UInt8
  toServer : List ClientMessage
  toClient : List ServerMessage
  /-- The client has closed the connection. -/
  closed : Bool
  reads : List HandlerRead
  deriving DecidableEq, Repr

/-- Whose turn it is.  Each party is sequential, so its next step is given by where
it stands; only the number of messages that `Ecall_ProcRecipeBatch` or
`Ecall_ProcRecipeTailBatch` sends is open. -/
inductive HandshakeAction
  | client
  | main
  | decoder (messages : Nat)
  /-- A call of the client fails. -/
  | clientExit
  /-- A call of one of the server's threads fails. -/
  | serverExit
  deriving DecidableEq, Repr

namespace Handshake

/-- The client is connected and has its session key. -/
def start : Handshake where
  main := .recvLogin
  decoder := .idle
  client := .sendLogin
  fileRecipeHead := none
  recipeReadHandler := .new
  toServer := []
  toClient := []
  closed := false
  reads := []

/-- A read into the front of a buffer. -/
def readInto (data buffer : Bytes) : Bytes := data ++ buffer.drop data.length

/-- The client's process ends. -/
def exitClient (s : Handshake) : Handshake := { s with client := .exited, closed := true }

/-- The server's process ends. -/
def exitServer (s : Handshake) : Handshake := { s with main := .exited, decoder := .exited }

/-- The client's next step.  A message of the wrong type makes it exit. -/
def clientStep (req : RestoreRequest) (s : Handshake) : Option Handshake :=
  match s.client with
  | .sendLogin => some
      { s with
        client := .recvResponse
        toServer := s.toServer ++ [.loginDownload req.loginData] }
  | .recvResponse =>
      match s.toClient with
      | [] => none
      | .loginResponse head :: rest => some
          { s with client := .sendReady, fileRecipeHead := some head, toClient := rest }
      | _ :: _ => some s.exitClient
  | .sendReady => some
      { s with client := .receiving, toServer := s.toServer ++ [.restoreReady] }
  | .receiving =>
      match s.toClient with
      | [] => none
      | .restoreChunk :: rest => some { s with toClient := rest }
      | .restoreFinal :: rest => some
          { s with client := .finished, closed := true, toClient := rest }
      | _ :: _ => some s.exitClient
  | .finished => none
  | .exited => none

/-- The main thread's next step.  A message of the wrong type makes the server
exit, and so does one in place of the close after `SERVER_FILE_NON_EXIST`. -/
def mainStep (req : RestoreRequest) (s : Handshake) : Option Handshake :=
  match s.main with
  | .recvLogin =>
      match s.toServer with
      | [] => none
      | .loginDownload data :: rest => some
          { s with
            main := if req.file.isSome then .initClient data else .sendNonExist
            toServer := rest }
      | _ :: _ => some s.exitServer
  | .initClient buf => some
      { s with
        main := .spawnDecoder buf
        recipeReadHandler := s.recipeReadHandler.openFile req.file }
  | .spawnDecoder buf => some { s with main := .readHead buf, decoder := .recvReady }
  | .readHead buf =>
      let r := s.recipeReadHandler.read fileRecipeHeadSize
      some
        { s with
          main := .sendResponse (readInto r.1 buf)
          recipeReadHandler := r.2
          reads := s.reads ++ [⟨.main, s.recipeReadHandler.pos, r.1⟩] }
  | .sendResponse buf => some
      { s with
        main := .join
        toClient := s.toClient ++ [.loginResponse (buf.take fileRecipeHeadSize)] }
  | .join => if s.decoder = .returned then some { s with main := .returned } else none
  | .sendNonExist => some
      { s with main := .waitClose, toClient := s.toClient ++ [.fileNonExist] }
  | .waitClose =>
      match s.toServer with
      | [] => if s.closed then some { s with main := .returned } else none
      | _ :: _ => some s.exitServer
  | .returned => none
  | .exited => none

/-- The decoder thread's next step. -/
def decoderStep (req : RestoreRequest) (s : Handshake) (messages : Nat) : Option Handshake :=
  match s.decoder with
  | .idle => none
  | .recvReady =>
      match s.toServer with
      | [] => none
      | .restoreReady :: rest => some { s with decoder := .readBatch, toServer := rest }
      | _ :: _ => some s.exitServer
  | .readBatch =>
      let r := s.recipeReadHandler.read (recipeEntrySize * req.sendRecipeBatchSize)
      some
        { s with
          decoder := if r.1.length = 0 then .procTail else .procBatch r.2.eofbit
          recipeReadHandler := r.2
          reads := s.reads ++ [⟨.decoder, s.recipeReadHandler.pos, r.1⟩] }
  | .procBatch eof => some
      { s with
        decoder := if eof then .procTail else .readBatch
        toClient := s.toClient ++ List.replicate messages .restoreChunk }
  | .procTail => some
      { s with
        decoder := .recvClose
        toClient := s.toClient ++ List.replicate messages .restoreChunk ++ [.restoreFinal] }
  | .recvClose =>
      -- the answer of `ReceiveData` changes only what is logged
      match s.toServer with
      | [] => if s.closed then some { s with decoder := .returned } else none
      | _ :: rest => some { s with decoder := .returned, toServer := rest }
  | .returned => none
  | .exited => none

/-- One step of one of the parties. -/
def step (req : RestoreRequest) (s : Handshake) : HandshakeAction → Option Handshake
  | .client => clientStep req s
  | .main => mainStep req s
  | .decoder messages => decoderStep req s messages
  | .clientExit => some s.exitClient
  | .serverExit => some s.exitServer

/-- The party's next step is a read of `_recipeReadHandler`. -/
def readEnabled (s : Handshake) : Reader → Prop
  | .main => ∃ buf, s.main = .readHead buf
  | .decoder => s.decoder = .readBatch

/-! ## The order of the reads -/

/-- The sixteen bytes that the client should get: the front of the recipe.  A
recipe that is shorter leaves the login message behind it in the buffer. -/
def responseHead (req : RestoreRequest) (f : Bytes) : Bytes :=
  (readInto (f.take fileRecipeHeadSize) req.loginData).take fileRecipeHeadSize

theorem responseHead_of_le {req : RestoreRequest} {f : Bytes}
    (h : fileRecipeHeadSize ≤ f.length) : responseHead req f = f.take fileRecipeHeadSize := by
  have hlen : (f.take fileRecipeHeadSize).length = fileRecipeHeadSize := by simpa using h
  rw [responseHead, readInto, List.take_append_of_le_length hlen.ge,
    List.take_of_length_le hlen.le]

/-- The decoder's reads from position `pos` on: each takes up where the one before
it ended and delivers at most `n` bytes. -/
def EntryReads (f : Bytes) (n : Nat) : Nat → List HandlerRead → Prop
  | _, [] => True
  | pos, r :: rest => r.reader = .decoder ∧ r.offset = pos ∧ r.data = (f.drop pos).take n ∧
      EntryReads f n (pos + r.data.length) rest

theorem entryReads_append {f : Bytes} {n pos : Nat} {rs rs' : List HandlerRead} :
    EntryReads f n pos (rs ++ rs') ↔ EntryReads f n pos rs ∧
      EntryReads f n (pos + (rs.flatMap HandlerRead.data).length) rs' := by
  induction rs generalizing pos with
  | nil => simp [EntryReads]
  | cons r rs ih =>
      simp only [List.cons_append, EntryReads, ih, List.flatMap_cons, List.length_append,
        and_assoc, Nat.add_assoc]

/-- The head was read first, the decoder's reads began behind it, and the stream
stands behind all of them. -/
def HeadRead (req : RestoreRequest) (s : Handshake) : Prop :=
  ∃ f rest, req.file = some f ∧
    s.reads = ⟨.main, 0, f.take fileRecipeHeadSize⟩ :: rest ∧
    EntryReads f (recipeEntrySize * req.sendRecipeBatchSize)
      (f.take fileRecipeHeadSize).length rest ∧
    s.recipeReadHandler.On f ∧
    s.recipeReadHandler.pos = (s.reads.flatMap HandlerRead.data).length

/-- What holds where the main thread stands. -/
def MainInv (req : RestoreRequest) (s : Handshake) : MainPc → Prop
  | .recvLogin => s.reads = [] ∧ s.recipeReadHandler = .new
  | .initClient buf => s.reads = [] ∧ s.recipeReadHandler = .new ∧ buf = req.loginData ∧
      req.file.isSome
  | .spawnDecoder buf | .readHead buf => s.reads = [] ∧ buf = req.loginData ∧
      ∃ f, req.file = some f ∧ s.recipeReadHandler = .opened f
  | .sendResponse buf => HeadRead req s ∧
      ∃ f, req.file = some f ∧ buf.take fileRecipeHeadSize = responseHead req f
  | _ => True

/-- The causal chain from the read of the head to the first read of entries. -/
structure Inv (req : RestoreRequest) (s : Handshake) : Prop where
  reads : s.reads = [] ∨ HeadRead req s
  main : MainInv req s s.main
  login : ∀ data, .loginDownload data ∈ s.toServer → data = req.loginData
  response : ∀ head, .loginResponse head ∈ s.toClient → HeadRead req s ∧
    ∃ f, req.file = some f ∧ head = responseHead req f
  answered : s.client.answered = true → HeadRead req s
  head : ∀ head, s.fileRecipeHead = some head →
    ∃ f, req.file = some f ∧ head = responseHead req f
  ready_sent : .restoreReady ∈ s.toServer → HeadRead req s
  ready : s.decoder.ready = true → HeadRead req s

variable {req : RestoreRequest} {s t : Handshake}

theorem inv_start : Inv req start where
  reads := .inl rfl
  main := ⟨rfl, rfl⟩
  login := nofun
  response := nofun
  answered := nofun
  head := nofun
  ready_sent := nofun
  ready := nofun

theorem Inv.exitClient (h : Inv req s) : Inv req s.exitClient :=
  { h with answered := nofun }

theorem Inv.exitServer (h : Inv req s) : Inv req s.exitServer :=
  { h with main := trivial, ready := nofun }

/-- A message to the server is received. -/
theorem Inv.takeServer (h : Inv req s) {m : ClientMessage} {rest : List ClientMessage}
    (hto : s.toServer = m :: rest) : Inv req { s with toServer := rest } :=
  { h with
    login := fun data hmem => h.login data (hto ▸ List.mem_cons_of_mem m hmem)
    ready_sent := fun hmem => h.ready_sent (hto ▸ List.mem_cons_of_mem m hmem) }

/-- A message to the client is received. -/
theorem Inv.takeClient (h : Inv req s) {m : ServerMessage} {rest : List ServerMessage}
    (hto : s.toClient = m :: rest) : Inv req { s with toClient := rest } :=
  { h with
    response := fun head hmem => h.response head (hto ▸ List.mem_cons_of_mem m hmem) }

/-- Messages to the client are sent, none of which is a response. -/
theorem Inv.sendClient (h : Inv req s) {msgs : List ServerMessage}
    (hmsgs : ∀ head, .loginResponse head ∉ msgs) :
    Inv req { s with toClient := s.toClient ++ msgs } :=
  { h with
    response := fun head hmem =>
      h.response head ((List.mem_append.mp hmem).resolve_right (hmsgs head)) }

theorem Inv.clientStep (h : Inv req s) (hstep : clientStep req s = some t) : Inv req t := by
  unfold Handshake.clientStep at hstep
  cases hpc : s.client with
  | sendLogin =>
      rw [hpc] at hstep
      cases hstep
      exact
        { h with
          login := by
            intro data hdata
            rcases List.mem_append.mp hdata with hdata | hdata
            · exact h.login data hdata
            · cases List.mem_singleton.mp hdata
              rfl
          answered := nofun
          ready_sent := by
            intro hready
            exact h.ready_sent (by simpa using hready) }
  | recvResponse =>
      rw [hpc] at hstep
      dsimp only at hstep
      split at hstep
      · cases hstep
      · next head rest hto =>
          cases hstep
          obtain ⟨hread, hhead⟩ := h.response head (by simp [hto])
          exact
            { h.takeClient hto with
              answered := fun _ => hread
              head := by
                intro head' heq
                cases heq
                exact hhead }
      · cases hstep
        exact h.exitClient
  | sendReady =>
      have hread : HeadRead req s := h.answered (by rw [hpc]; rfl)
      rw [hpc] at hstep
      cases hstep
      exact
        { h with
          login := by
            intro data hdata
            exact h.login data (by simpa using hdata)
          answered := fun _ => hread
          ready_sent := fun _ => hread }
  | receiving =>
      have hread : HeadRead req s := h.answered (by rw [hpc]; rfl)
      rw [hpc] at hstep
      dsimp only at hstep
      split at hstep
      · cases hstep
      · next rest hto =>
          cases hstep
          exact { h.takeClient hto with answered := fun _ => hread }
      · next rest hto =>
          cases hstep
          exact { h.takeClient hto with answered := fun _ => hread }
      · cases hstep
        exact h.exitClient
  | finished | exited =>
      rw [hpc] at hstep
      cases hstep

/-- The main thread's read is the first of all. -/
theorem headRead_of_opened {f : Bytes} (hfile : req.file = some f) (hreads : s.reads = [])
    (hopen : s.recipeReadHandler = .opened f) {main : MainPc} :
    HeadRead req
      { s with
        main := main
        recipeReadHandler := (s.recipeReadHandler.read fileRecipeHeadSize).2
        reads := s.reads ++ [⟨.main, s.recipeReadHandler.pos,
          (s.recipeReadHandler.read fileRecipeHeadSize).1⟩] } := by
  obtain ⟨hdata, hpos, hon⟩ := (InStream.on_opened f).read fileRecipeHeadSize
  refine ⟨f, [], hfile, ?_, trivial, by rw [hopen]; exact hon, ?_⟩
  · simp [hreads, hopen, hdata]
  · simp [hreads, hopen, hdata, hpos]

/-- A read of the decoder takes up where the stream stands. -/
theorem HeadRead.entryRead (h : HeadRead req s) {decoder : DecoderPc} :
    HeadRead req
      { s with
        decoder := decoder
        recipeReadHandler :=
          (s.recipeReadHandler.read (recipeEntrySize * req.sendRecipeBatchSize)).2
        reads := s.reads ++ [⟨.decoder, s.recipeReadHandler.pos,
          (s.recipeReadHandler.read (recipeEntrySize * req.sendRecipeBatchSize)).1⟩] } := by
  obtain ⟨f, rest, hfile, hreads, hrest, hon, hpos⟩ := h
  obtain ⟨hdata, hpos', hon'⟩ := hon.read (recipeEntrySize * req.sendRecipeBatchSize)
  have hoffset : s.recipeReadHandler.pos =
      (f.take fileRecipeHeadSize).length + (rest.flatMap HandlerRead.data).length := by
    rw [hpos, hreads]
    simp
  refine ⟨f, _, hfile, by rw [hreads, List.cons_append], ?_, hon', ?_⟩
  · rw [entryReads_append]
    exact ⟨hrest, rfl, hoffset, by rw [hdata, hoffset], trivial⟩
  · simp only [List.flatMap_append, List.length_append, ← hpos, hpos', hdata]
    simp

theorem HeadRead.reads_ne (h : HeadRead req s) : s.reads ≠ [] := by
  obtain ⟨f, rest, -, hreads, -⟩ := h
  simp [hreads]

/-- Until the head is read no other party gets past its wait, so the main thread
alone has the stream. -/
theorem Inv.before_head (h : Inv req s) (hreads : s.reads = []) {main : MainPc}
    {handler : InStream UInt8} {reads : List HandlerRead}
    (hreads' : reads = [] ∨
      HeadRead req { s with main := main, recipeReadHandler := handler, reads := reads })
    (hmain : MainInv req
      { s with main := main, recipeReadHandler := handler, reads := reads } main) :
    Inv req { s with main := main, recipeReadHandler := handler, reads := reads } where
  reads := hreads'
  main := hmain
  login := h.login
  response := fun head hmem => absurd hreads (h.response head hmem).1.reads_ne
  answered := fun hanswered => absurd hreads (h.answered hanswered).reads_ne
  head := h.head
  ready_sent := fun hmem => absurd hreads (h.ready_sent hmem).reads_ne
  ready := fun hready => absurd hreads (h.ready hready).reads_ne

/-- Once the head is read the main thread has no more to do with the stream. -/
theorem MainInv.after_head {pc : MainPc} (h : MainInv req s pc) (hread : HeadRead req s)
    (hread' : HeadRead req t) : MainInv req t pc := by
  cases pc with
  | recvLogin => exact absurd h.1 hread.reads_ne
  | initClient buf => exact absurd h.1 hread.reads_ne
  | spawnDecoder buf => exact absurd h.1 hread.reads_ne
  | readHead buf => exact absurd h.1 hread.reads_ne
  | sendResponse buf => exact ⟨hread', h.2⟩
  | join | sendNonExist | waitClose | returned | exited => trivial

theorem Inv.mainStep (h : Inv req s) (hstep : mainStep req s = some t) : Inv req t := by
  have hmain := h.main
  unfold Handshake.mainStep at hstep
  cases hpc : s.main with
  | recvLogin =>
      rw [hpc] at hstep hmain
      dsimp only at hstep
      split at hstep
      · cases hstep
      · next data rest hto =>
          cases hstep
          have hdata := h.login data (by simp [hto])
          exact
            { h.takeServer hto with
              main := by
                cases hfile : req.file with
                | none => trivial
                | some f => exact ⟨hmain.1, hmain.2, hdata, by simp [hfile]⟩ }
      · cases hstep
        exact h.exitServer
  | initClient buf =>
      rw [hpc] at hstep hmain
      cases hstep
      obtain ⟨hreads, hnew, hbuf, hfile⟩ := hmain
      obtain ⟨f, hf⟩ := Option.isSome_iff_exists.mp hfile
      have hopen : s.recipeReadHandler.openFile req.file = .opened f := by
        rw [hnew, hf]
        rfl
      exact h.before_head hreads (.inl hreads) ⟨hreads, hbuf, f, hf, hopen⟩
  | spawnDecoder buf =>
      rw [hpc] at hstep hmain
      cases hstep
      exact { h with main := hmain, ready := nofun }
  | readHead buf =>
      rw [hpc] at hstep hmain
      cases hstep
      obtain ⟨hreads, hbuf, f, hfile, hopen⟩ := hmain
      have hdata := ((InStream.on_opened f).read fileRecipeHeadSize).1
      refine h.before_head hreads (.inr (headRead_of_opened hfile hreads hopen))
        ⟨headRead_of_opened hfile hreads hopen, f, hfile, ?_⟩
      rw [hopen, hdata, hbuf]
      rfl
  | sendResponse buf =>
      rw [hpc] at hstep hmain
      cases hstep
      obtain ⟨hread, hbuf⟩ := hmain
      exact
        { h with
          main := trivial
          response := by
            intro head hmem
            rcases List.mem_append.mp hmem with hmem | hmem
            · exact h.response head hmem
            · cases List.mem_singleton.mp hmem
              exact ⟨hread, hbuf⟩ }
  | join =>
      rw [hpc] at hstep
      dsimp only at hstep
      split at hstep <;> cases hstep
      exact { h with main := trivial }
  | sendNonExist =>
      rw [hpc] at hstep
      cases hstep
      exact { h.sendClient (by simp) with main := trivial }
  | waitClose =>
      rw [hpc] at hstep
      dsimp only at hstep
      split at hstep
      · split at hstep <;> cases hstep
        exact { h with main := trivial }
      · cases hstep
        exact h.exitServer
  | returned | exited =>
      rw [hpc] at hstep
      cases hstep

theorem Inv.decoderStep (h : Inv req s) {messages : Nat}
    (hstep : decoderStep req s messages = some t) : Inv req t := by
  have hready := h.ready
  unfold Handshake.decoderStep at hstep
  cases hpc : s.decoder with
  | recvReady =>
      rw [hpc] at hstep
      dsimp only at hstep
      split at hstep
      · cases hstep
      · next rest hto =>
          cases hstep
          have hread := h.ready_sent (by simp [hto])
          exact
            { h.takeServer hto with
              ready_sent := fun _ => hread
              ready := fun _ => hread }
      · cases hstep
        exact h.exitServer
  | readBatch =>
      rw [hpc] at hstep hready
      cases hstep
      have hread := hready rfl
      exact
        { h with
          reads := .inr hread.entryRead
          main := h.main.after_head hread hread.entryRead
          response := fun head hmem => ⟨hread.entryRead, (h.response head hmem).2⟩
          answered := fun _ => hread.entryRead
          ready_sent := fun _ => hread.entryRead
          ready := fun _ => hread.entryRead }
  | procBatch eof =>
      rw [hpc] at hstep hready
      cases hstep
      exact { h.sendClient (by simp) with ready := fun _ => hready rfl }
  | procTail =>
      rw [hpc] at hstep hready
      cases hstep
      rw [List.append_assoc]
      exact { h.sendClient (by simp) with ready := fun _ => hready rfl }
  | recvClose =>
      rw [hpc] at hstep hready
      dsimp only at hstep
      split at hstep
      · split at hstep <;> cases hstep
        exact { h with ready := fun _ => hready rfl }
      · next rest hto =>
          cases hstep
          exact { h.takeServer hto with ready := fun _ => hready rfl }
  | idle | returned | exited =>
      rw [hpc] at hstep
      cases hstep

theorem Inv.step (h : Inv req s) {a : HandshakeAction} (hstep : step req s a = some t) :
    Inv req t := by
  cases a with
  | client => exact h.clientStep hstep
  | main => exact h.mainStep hstep
  | decoder messages => exact h.decoderStep hstep
  | clientExit =>
      cases hstep
      exact h.exitClient
  | serverExit =>
      cases hstep
      exact h.exitServer

/-- Every state of every run. -/
theorem inv_of_reaches (hrun : Runs.Reaches (Handshake.step req) start s) : Inv req s :=
  hrun.invariant (fun _ _ _ h hstep => h.step hstep) inv_start

/-- While the main thread is about to read the head, the decoder thread is not
about to read. -/
theorem Inv.not_both_enabled (h : Inv req s) :
    ¬ (s.readEnabled .main ∧ s.readEnabled .decoder) := by
  rintro ⟨⟨buf, hmain⟩, hdecoder⟩
  have hread := h.ready (by rw [hdecoder]; rfl)
  have hbefore := h.main
  rw [hmain] at hbefore
  exact hread.reads_ne hbefore.1

/-- **The order of the restore login.**  In every state of every run the two
threads do not both stand before a read of the stream.  If there was any read at
all, the first one was the main thread's, of the head, and the decoder's reads
began right behind it and followed each other without a gap.  A client that has a
head has the first bytes of the recipe. -/
theorem restore_login_order (req : RestoreRequest) (s : Handshake)
    (hrun : Runs.Reaches (Handshake.step req) start s) :
    ¬ (s.readEnabled .main ∧ s.readEnabled .decoder) ∧
    (s.reads = [] ∨ ∃ f rest, req.file = some f ∧
      s.reads = ⟨.main, 0, f.take fileRecipeHeadSize⟩ :: rest ∧
      EntryReads f (recipeEntrySize * req.sendRecipeBatchSize)
        (f.take fileRecipeHeadSize).length rest) ∧
    ∀ head, s.fileRecipeHead = some head → ∃ f, req.file = some f ∧
      head = responseHead req f ∧
      (fileRecipeHeadSize ≤ f.length → head = f.take fileRecipeHeadSize) := by
  have h := inv_of_reaches hrun
  refine ⟨h.not_both_enabled, ?_, ?_⟩
  · rcases h.reads with hnil | ⟨f, rest, hfile, hreads, hrest, -⟩
    · exact .inl hnil
    · exact .inr ⟨f, rest, hfile, hreads, hrest⟩
  · intro head hhead
    obtain ⟨f, hfile, heq⟩ := h.head head hhead
    exact ⟨f, hfile, heq, fun hle => by rw [heq, responseHead_of_le hle]⟩

/-- A recipe of one entry is restored in pieces of one entry, with every message
delivered. -/
theorem restore_login_order_one_entry :
    ∃ s f, Runs.Reaches (Handshake.step ⟨some f, [], 1⟩) start s ∧ s.main = .returned ∧
      s.fileRecipeHead = some (f.take fileRecipeHeadSize) ∧ s.reads.length = 3 := by
  let f : Bytes := List.replicate 16 1 ++ List.replicate 16 7
  let schedule : List HandshakeAction :=
    [.client, .main, .main, .main, .main, .main, .client, .client, .decoder 0, .decoder 0,
      .decoder 1, .decoder 0, .decoder 0, .client, .client, .decoder 0, .main]
  obtain ⟨s, hs⟩ : ∃ s, Runs.run (Handshake.step ⟨some f, [], 1⟩) start schedule = some s :=
    Option.isSome_iff_exists.mp (by decide)
  have hend : s.main = .returned ∧ s.fileRecipeHead.isSome ∧ s.reads.length = 3 := by
    cases hs
    decide
  obtain ⟨hmain, hhead, hlength⟩ := hend
  obtain ⟨head, hhead⟩ := Option.isSome_iff_exists.mp hhead
  obtain ⟨f', hf', -, heq⟩ := (restore_login_order _ s (Runs.reaches_of_run hs)).2.2 head hhead
  cases hf'
  exact ⟨s, f, Runs.reaches_of_run hs, hmain, by rw [hhead, heq (by decide)], hlength⟩

/-! ## The entries that are read -/

/-- The decoder has read to the end of the recipe. -/
def Ended (req : RestoreRequest) (s : Handshake) : Prop :=
  match s.decoder with
  | .procBatch true | .procTail | .recvClose | .returned =>
      ∀ f, req.file = some f → s.recipeReadHandler.pos = f.length
  | _ => True

/-- Reads that come to the end of the file are the pieces it is cut into. -/
theorem EntryReads.pieces_eq {f : Bytes} {n pos : Nat} {rs : List HandlerRead} (hn : 0 < n)
    (h : EntryReads f n pos rs) (hend : f.length ≤ pos + (rs.flatMap HandlerRead.data).length) :
    pieces n (f.drop pos) = (rs.map HandlerRead.data).filter (· ≠ []) := by
  induction rs generalizing pos with
  | nil =>
      have hnil : f.drop pos = [] := List.drop_of_length_le (by simpa using hend)
      simp [hnil]
  | cons r rs ih =>
      obtain ⟨-, -, hdata, hrest⟩ := h
      have hpieces := ih hrest (by simpa [Nat.add_assoc] using hend)
      by_cases hnil : f.drop pos = []
      · have hempty : r.data = [] := by simp [hdata, hnil]
        simpa [hempty] using hpieces
      · have hne : r.data ≠ [] := by
          rw [hdata, ne_eq, List.take_eq_nil_iff]
          exact not_or.mpr ⟨hn.ne', hnil⟩
        have hdrop : (f.drop pos).drop n = f.drop (pos + r.data.length) := by
          rw [List.drop_drop, hdata, List.length_take, List.length_drop]
          rcases Nat.le_total n (f.length - pos) with hle | hle
          · rw [Nat.min_eq_left hle]
          · rw [Nat.min_eq_right hle, List.drop_of_length_le (by omega),
              List.drop_of_length_le (by omega)]
        rw [pieces_of_ne hn hnil, hdrop, hpieces, ← hdata]
        simp [hne]

/-- The decoder's reads are not disturbed before it is ready. -/
theorem ended_of_not_ready (h : s.decoder.ready = false) : Ended req s := by
  unfold Ended
  split <;> simp_all [DecoderPc.ready]

theorem Ended.clientStep (h : Ended req s) (hstep : clientStep req s = some t) :
    Ended req t := by
  unfold Handshake.clientStep at hstep
  split at hstep <;> (try split at hstep) <;> cases hstep <;> exact h

/-- The main thread moves the stream only before the decoder is ready. -/
theorem Ended.mainStep (h : Ended req s) (hinv : Inv req s) (hstep : mainStep req s = some t) :
    Ended req t := by
  have hmain := hinv.main
  have hwait : s.reads = [] → s.decoder.ready = false := fun hreads =>
    Bool.eq_false_iff.mpr fun hready => (hinv.ready hready).reads_ne hreads
  unfold Handshake.mainStep at hstep
  cases hpc : s.main with
  | recvLogin =>
      rw [hpc] at hstep
      dsimp only at hstep
      split at hstep <;> cases hstep
      · exact h
      · exact ended_of_not_ready rfl
  | initClient buf | readHead buf =>
      rw [hpc] at hstep hmain
      cases hstep
      exact ended_of_not_ready (hwait hmain.1)
  | spawnDecoder buf =>
      rw [hpc] at hstep
      cases hstep
      exact ended_of_not_ready rfl
  | sendResponse buf | sendNonExist =>
      rw [hpc] at hstep
      cases hstep
      exact h
  | join =>
      rw [hpc] at hstep
      dsimp only at hstep
      split at hstep <;> cases hstep
      exact h
  | waitClose =>
      rw [hpc] at hstep
      dsimp only at hstep
      split at hstep
      · split at hstep <;> cases hstep
        exact h
      · cases hstep
        exact ended_of_not_ready rfl
  | returned | exited =>
      rw [hpc] at hstep
      cases hstep

/-- A read that delivers nothing or meets the end has come to the end of the recipe. -/
theorem HeadRead.pos_of_stop (h : HeadRead req s) (hbatch : 0 < req.sendRecipeBatchSize)
    (hstop : (s.recipeReadHandler.read (recipeEntrySize * req.sendRecipeBatchSize)).1 = [] ∨
      (s.recipeReadHandler.read (recipeEntrySize * req.sendRecipeBatchSize)).2.eofbit = true) :
    ∀ f, req.file = some f →
      (s.recipeReadHandler.read (recipeEntrySize * req.sendRecipeBatchSize)).2.pos = f.length := by
  obtain ⟨f, rest, hfile, -, -, hon, -⟩ := h
  have hsize : 0 < recipeEntrySize * req.sendRecipeBatchSize :=
    Nat.mul_pos (by decide) hbatch
  intro f' hf'
  obtain rfl : f' = f := Option.some.inj (hf'.symm.trans hfile)
  exact hon.pos_of_stop hsize hstop

/-- A read leaves the loop when it delivers nothing or meets the end. -/
theorem Ended.decoderStep (h : Ended req s) (hinv : Inv req s)
    (hbatch : 0 < req.sendRecipeBatchSize) {messages : Nat}
    (hstep : decoderStep req s messages = some t) : Ended req t := by
  unfold Handshake.decoderStep at hstep
  unfold Ended at h
  cases hpc : s.decoder with
  | recvReady =>
      rw [hpc] at hstep
      dsimp only at hstep
      split at hstep <;> cases hstep
      · trivial
      · exact ended_of_not_ready rfl
  | readBatch =>
      have hread := hinv.ready (by rw [hpc]; rfl)
      rw [hpc] at hstep
      cases hstep
      unfold Ended
      dsimp only
      split_ifs with hnone
      · exact hread.pos_of_stop hbatch (.inl (List.length_eq_zero_iff.mp hnone))
      · cases heof : (s.recipeReadHandler.read (recipeEntrySize * req.sendRecipeBatchSize)).2.eofbit
        · trivial
        · exact hread.pos_of_stop hbatch (.inr heof)
  | procBatch eof =>
      rw [hpc] at hstep h
      cases hstep
      cases eof with
      | true => exact h
      | false => trivial
  | procTail =>
      rw [hpc] at hstep h
      cases hstep
      exact h
  | recvClose =>
      rw [hpc] at hstep h
      dsimp only at hstep
      split at hstep
      · split at hstep <;> cases hstep
        exact h
      · cases hstep
        exact h
  | idle | returned | exited =>
      rw [hpc] at hstep
      cases hstep

theorem Ended.step (h : Ended req s) (hinv : Inv req s)
    (hbatch : 0 < req.sendRecipeBatchSize) {a : HandshakeAction}
    (hstep : step req s a = some t) : Ended req t := by
  cases a with
  | client => exact h.clientStep hstep
  | main => exact h.mainStep hinv hstep
  | decoder messages => exact h.decoderStep hinv hbatch hstep
  | clientExit =>
      cases hstep
      exact h
  | serverExit =>
      cases hstep
      exact ended_of_not_ready rfl

theorem drop_length_take (f : Bytes) (n : Nat) : f.drop (f.take n).length = f.drop n := by
  rcases Nat.le_total n f.length with hle | hle
  · rw [List.length_take, Nat.min_eq_left hle]
  · rw [List.length_take, Nat.min_eq_right hle, List.drop_length, List.drop_of_length_le hle]

/-- A read that delivered nothing adds no entries. -/
theorem flatMap_readPiece_filter (p : Params) (masterKey : Bytes) (l : List Bytes) :
    (l.filter (· ≠ [])).flatMap (readPiece p masterKey) = l.flatMap (readPiece p masterKey) := by
  induction l with
  | nil => rfl
  | cons piece l ih =>
      by_cases hnil : piece = []
      · have hnone : readPiece p masterKey [] = [] := rfl
        simpa [hnil, hnone] using ih
      · simpa [hnil] using ih

/-- **What a restore decrypts.**  Once the decoder has left its loop, the batches it
read under this login are those that `readRecipe` speaks of. -/
theorem readRecipe_of_ended (p : Params) (masterKey : Bytes)
    (hbatch : req.sendRecipeBatchSize = p.sendRecipeBatchSize)
    (hrun : Runs.Reaches (Handshake.step req) start s) (hleft : s.decoder = .recvClose) :
    ∃ f, req.file = some f ∧ readRecipe p masterKey f =
      (FileRecipeHead.ofBytes (f.take fileRecipeHeadSize),
        (s.reads.tail.map HandlerRead.data).flatMap (readPiece p masterKey)) := by
  have hpos : 0 < req.sendRecipeBatchSize := hbatch ▸ p.sendRecipeBatchSize_pos
  have hboth : Inv req s ∧ Ended req s :=
    hrun.invariant (P := fun s => Inv req s ∧ Ended req s)
      (by
        intro s a t h hstep
        exact ⟨h.1.step hstep, h.2.step h.1 hpos hstep⟩)
      ⟨inv_start, trivial⟩
  obtain ⟨f, rest, hfile, hreads, hrest, -, htotal⟩ := hboth.1.ready (by rw [hleft]; rfl)
  have hend := hboth.2
  rw [Ended, hleft] at hend
  have hlength := (hend f hfile).symm.trans htotal
  have hsize : 0 < recipeEntrySize * req.sendRecipeBatchSize := Nat.mul_pos (by decide) hpos
  have hpieces := hrest.pieces_eq hsize (by simpa [hreads] using hlength.le)
  refine ⟨f, hfile, ?_⟩
  rw [readRecipe, ← hbatch, ← drop_length_take, hpieces, flatMap_readPiece_filter, hreads,
    List.tail_cons]

end Handshake

end Debe
