import Debe.Lib.Runs
import Mathlib.Logic.Function.Basic

/-!
# Admission of clients

Every connection has a thread in `ServerOptThread::Run`.  When the session key
request has come in, the thread takes `clientLockSetLock_`, finds or creates the
mutex of the client ID in `clientLockIndex_`, locks that mutex while it still has
the set lock, and lets the set lock go.  From there on it is admitted, until it
unlocks the mutex on one of its two ways out: the file to restore does not exist,
or the client has been served.

Admitted, it derives a session key in `Ecall_Session_Key_Exchange`, which puts it
into `clientSessionKeyIndex_` under the client ID.  After two messages over the
network `Ecall_Init_Client` looks the key up there and copies it into the new
`EnclaveClient`; the exit branch for a missing key is kept.

Connections are numbered, and any number of them take steps in any order.  An
acquisition or a release of a lock, an ecall, and an exchange of messages is one
step.  An error on a connection makes the whole process exit.
-/

namespace Debe

/-- Where a connection's thread stands. -/
inductive ConnectionPc
  /-- Waiting for `SESSION_KEY_INIT`. -/
  | accepted
  /-- Before `lock_guard<mutex> lock(clientLockSetLock_)`. -/
  | lockSet
  /-- Before the search in `clientLockIndex_`, with the set lock. -/
  | findLock
  /-- Before `tmpLock->lock()`, with the set lock. -/
  | lockClient
  /-- At the end of the guard's scope, with both locks. -/
  | unlockSet
  | keyExchange
  /-- The key goes out and the login message comes in. -/
  | login
  /-- `SERVER_FILE_NON_EXIST`, and the wait for the close. -/
  | nonExist
  | initClient
  /-- The client's threads run and are joined. -/
  | serving
  /-- Before `tmpLock->unlock()`. -/
  | unlock
  | returned
  deriving DecidableEq, Repr

namespace ConnectionPc

/-- With `clientLockSetLock_`. -/
def holdsSet : ConnectionPc → Bool
  | .findLock | .lockClient | .unlockSet => true
  | _ => false

/-- With the mutex of its client ID. -/
def admitted : ConnectionPc → Bool
  | .unlockSet | .keyExchange | .login | .nonExist | .initClient | .serving | .unlock => true
  | _ => false

/-- On its way to the mutex of its client ID. -/
def waiting : ConnectionPc → Bool
  | .lockSet | .findLock | .lockClient => true
  | _ => false

/-- Between the two ecalls that write and read the session key. -/
def exchanged : ConnectionPc → Bool
  | .login | .initClient => true
  | _ => false

/-- Not yet through `Ecall_Init_Client`. -/
def beforeInit : ConnectionPc → Bool
  | .nonExist | .serving | .unlock | .returned => false
  | _ => true

end ConnectionPc

/-- One connection.  `derived` is the key that its own key exchange derived, a
history that the server does not keep; `sessionKey` is `_sessionKey` of its
`EnclaveClient`. -/
structure Connection (κ : Type*) where
  clientID : Nat
  pc : ConnectionPc
  derived : Option κ
  sessionKey : Option κ
  deriving DecidableEq, Repr

/-- Why the process ended. -/
inductive ExitReason
  | connection
  /-- "get the session key fails." -/
  | noSessionKey
  deriving DecidableEq, Repr

/-- The server as its connections share it. -/
structure Admission (κ : Type*) where
  conns : Nat → Connection κ
  /-- Who holds `clientLockSetLock_`. -/
  setLock : Option Nat
  /-- `clientLockIndex_`: the mutex of a client ID, if there is one, and who holds
  it. -/
  clientLocks : Nat → Option (Option Nat)
  /-- `clientSessionKeyIndex_`. -/
  sessionKeys : Nat → Option κ
  exit : Option ExitReason

inductive AdmissionAction (κ : Type*)
  /-- The session key request of a client with this ID comes in. -/
  | receive (i clientID : Nat)
  /-- `Ecall_Session_Key_Exchange`, which derives this key. -/
  | keyExchange (i : Nat) (key : κ)
  /-- The login message comes in, with the answer of `CheckFileStatus`. -/
  | login (i : Nat) (fileStatus : Bool)
  /-- Any other step of the connection. -/
  | advance (i : Nat)
  | fail (i : Nat)
  deriving DecidableEq, Repr

namespace Admission

variable {κ : Type*}

/-- No connection yet. -/
def start : Admission κ where
  conns := fun _ => ⟨0, .accepted, none, none⟩
  setLock := none
  clientLocks := fun _ => none
  sessionKeys := fun _ => none
  exit := none

/-- A connection's own state changes. -/
def put (s : Admission κ) (i : Nat) (conn : Connection κ) : Admission κ :=
  { s with conns := Function.update s.conns i conn }

@[simp] theorem put_conns_self (s : Admission κ) (i : Nat) (conn : Connection κ) :
    (s.put i conn).conns i = conn :=
  Function.update_self _ _ _

theorem put_conns_ne (s : Admission κ) {i j : Nat} (h : j ≠ i) (conn : Connection κ) :
    (s.put i conn).conns j = s.conns j :=
  Function.update_of_ne h _ _

/-- The mutex of a client ID changes hands. -/
def setClientLock (s : Admission κ) (clientID : Nat) (holder : Option Nat) : Admission κ :=
  { s with clientLocks := Function.update s.clientLocks clientID (some holder) }

@[simp] theorem setClientLock_self (s : Admission κ) (c : Nat) (holder : Option Nat) :
    (s.setClientLock c holder).clientLocks c = some holder :=
  Function.update_self _ _ _

theorem setClientLock_ne (s : Admission κ) {c c' : Nat} (h : c' ≠ c) (holder : Option Nat) :
    (s.setClientLock c holder).clientLocks c' = s.clientLocks c' :=
  Function.update_of_ne h _ _

/-- The steps that carry no data. -/
def advance (s : Admission κ) (i : Nat) : Option (Admission κ) :=
  let conn := s.conns i
  match conn.pc with
  | .lockSet =>
      match s.setLock with
      | none => some ({ s with setLock := some i }.put i { conn with pc := .findLock })
      | some _ => none
  | .findLock =>
      match s.clientLocks conn.clientID with
      | some _ => some (s.put i { conn with pc := .lockClient })
      | none => some ((s.setClientLock conn.clientID none).put i { conn with pc := .lockClient })
  | .lockClient =>
      match s.clientLocks conn.clientID with
      | some none => some
          ((s.setClientLock conn.clientID (some i)).put i { conn with pc := .unlockSet })
      | _ => none
  | .unlockSet => some ({ s with setLock := none }.put i { conn with pc := .keyExchange })
  | .nonExist => some (s.put i { conn with pc := .unlock })
  | .initClient =>
      match s.sessionKeys conn.clientID with
      | none => some { s with exit := some .noSessionKey }
      | some key => some (s.put i { conn with pc := .serving, sessionKey := some key })
  | .serving => some (s.put i { conn with pc := .unlock })
  | .unlock => some ((s.setClientLock conn.clientID none).put i { conn with pc := .returned })
  | .accepted | .keyExchange | .login | .returned => none

/-- One step of one connection, while the process lives. -/
def step (s : Admission κ) (a : AdmissionAction κ) : Option (Admission κ) :=
  if s.exit.isSome then none else
  match a with
  | .receive i clientID =>
      if (s.conns i).pc = .accepted then
        some (s.put i { s.conns i with pc := .lockSet, clientID := clientID })
      else none
  | .keyExchange i key =>
      if (s.conns i).pc = .keyExchange then
        some ({ s with
          sessionKeys := Function.update s.sessionKeys (s.conns i).clientID (some key) }.put i
            { s.conns i with pc := .login, derived := some key })
      else none
  | .login i fileStatus =>
      if (s.conns i).pc = .login then
        some (s.put i { s.conns i with pc := if fileStatus then .initClient else .nonExist })
      else none
  | .advance i => s.advance i
  | .fail _ => some { s with exit := some .connection }

/-! ## What the locks and the key index say about a connection -/

/-- The shared state agrees with where connection `i` stands: it has exactly the
locks that its position says, and between its two ecalls the key index holds the
key that it derived. -/
structure ConnInv (s : Admission κ) (i : Nat) (conn : Connection κ) : Prop where
  setLock : s.setLock = some i ↔ conn.pc.holdsSet = true
  locks : ∀ c, s.clientLocks c = some (some i) ↔ conn.pc.admitted = true ∧ conn.clientID = c
  found : conn.pc = .lockClient → (s.clientLocks conn.clientID).isSome = true
  keys : conn.pc.exchanged = true →
    ∃ key, s.sessionKeys conn.clientID = some key ∧ conn.derived = some key
  uncopied : conn.pc.beforeInit = true → conn.sessionKey = none
  copied : ∀ key, conn.sessionKey = some key → conn.derived = some key

structure Inv (s : Admission κ) : Prop where
  conns : ∀ i, ConnInv s i (s.conns i)
  exit : s.exit ≠ some .noSessionKey

variable {s t : Admission κ} {i j : Nat} {conn : Connection κ}

theorem inv_start : Inv (start : Admission κ) where
  conns := fun i =>
    { setLock := by simp [start, ConnectionPc.holdsSet]
      locks := by simp [start, ConnectionPc.admitted]
      found := nofun
      keys := nofun
      uncopied := fun _ => rfl
      copied := nofun }
  exit := nofun

/-- An admitted connection has the mutex of its client ID. -/
theorem Inv.clientLock (h : Inv s) (hadmitted : (s.conns i).pc.admitted = true) :
    s.clientLocks (s.conns i).clientID = some (some i) :=
  ((h.conns i).locks _).mpr ⟨hadmitted, rfl⟩

/-- **One client for each ID.**  Two admitted connections have different IDs. -/
theorem Inv.admitted_unique (h : Inv s) (hi : (s.conns i).pc.admitted = true)
    (hj : (s.conns j).pc.admitted = true)
    (hid : (s.conns i).clientID = (s.conns j).clientID) : i = j := by
  have hlock := h.clientLock hi
  rw [hid, h.clientLock hj] at hlock
  simpa using hlock.symm

/-- What another connection must leave alone. -/
structure Framed (s t : Admission κ) (j : Nat) : Prop where
  setLock : t.setLock = some j ↔ s.setLock = some j
  locks : ∀ c, t.clientLocks c = some (some j) ↔ s.clientLocks c = some (some j)
  found : ∀ c, (s.clientLocks c).isSome = true → (t.clientLocks c).isSome = true
  keys : (s.conns j).pc.exchanged = true →
    t.sessionKeys (s.conns j).clientID = s.sessionKeys (s.conns j).clientID

theorem framed_refl (s : Admission κ) (j : Nat) : Framed s s j :=
  ⟨Iff.rfl, fun _ => Iff.rfl, fun _ => id, fun _ => rfl⟩

/-- A mutex that `j` neither has nor gets changes hands. -/
theorem framed_setClientLock {c : Nat} {holder : Option Nat}
    (hbefore : s.clientLocks c ≠ some (some j)) (hafter : holder ≠ some j) :
    Framed s (s.setClientLock c holder) j where
  setLock := Iff.rfl
  locks := by
    intro c'
    by_cases hc : c' = c
    · simp [hc, hbefore, hafter]
    · rw [setClientLock_ne s hc]
  found := by
    intro c' hsome
    by_cases hc : c' = c
    · simp [hc]
    · rwa [setClientLock_ne s hc]
  keys := fun _ => rfl

/-- **Frame rule.**  A step of connection `i` has to account for `i` itself and for
what it does to the shared state. -/
theorem Inv.put (h : Inv s) (hconns : t.conns = s.conns) (hexit : t.exit = s.exit)
    (hframe : ∀ j, j ≠ i → Framed s t j) (hself : ConnInv t i conn) : Inv (t.put i conn) where
  conns := by
    intro j
    by_cases hj : j = i
    · subst hj
      rw [put_conns_self]
      exact { hself with }
    · have hf := hframe j hj
      have hold := h.conns j
      rw [put_conns_ne t hj, hconns]
      exact
        { setLock := hf.setLock.trans hold.setLock
          locks := fun c => (hf.locks c).trans (hold.locks c)
          found := fun hpc => hf.found _ (hold.found hpc)
          keys := by
            intro hpc
            obtain ⟨key, hkey, hderived⟩ := hold.keys hpc
            exact ⟨key, (hf.keys hpc).trans hkey, hderived⟩
          uncopied := hold.uncopied
          copied := hold.copied }
  exit := by
    show t.exit ≠ _
    rw [hexit]
    exact h.exit

/-- Before its key exchange a connection has to account for its locks only. -/
theorem ConnInv.early (h : ConnInv s i conn) (hbefore : conn.pc.beforeInit = true)
    {pc : ConnectionPc} {clientID : Nat} (hpc : pc.exchanged = false)
    (hset : t.setLock = some i ↔ pc.holdsSet = true)
    (hlocks : ∀ c, t.clientLocks c = some (some i) ↔ pc.admitted = true ∧ clientID = c)
    (hfound : pc = .lockClient → (t.clientLocks clientID).isSome = true) :
    ConnInv t i { conn with pc := pc, clientID := clientID } where
  setLock := hset
  locks := hlocks
  found := hfound
  keys := by
    intro hexchanged
    rw [hpc] at hexchanged
    cases hexchanged
  uncopied := fun _ => h.uncopied hbefore
  copied := h.copied

/-! ## Every step keeps it -/

theorem Inv.receive (h : Inv s) (hpc : (s.conns i).pc = .accepted) (clientID : Nat) :
    Inv (s.put i { s.conns i with pc := .lockSet, clientID := clientID }) := by
  have hi := h.conns i
  refine h.put rfl rfl (fun j _ => framed_refl s j) ?_
  refine hi.early (by rw [hpc]; rfl) rfl ?_ ?_ nofun
  · simpa [hpc, ConnectionPc.holdsSet] using hi.setLock
  · simpa [hpc, ConnectionPc.admitted] using hi.locks

theorem Inv.lockSet (h : Inv s) (hpc : (s.conns i).pc = .lockSet) (hfree : s.setLock = none) :
    Inv ({ s with setLock := some i }.put i { s.conns i with pc := .findLock }) := by
  have hi := h.conns i
  refine h.put rfl rfl ?_ ?_
  · intro j hj
    exact { framed_refl s j with setLock := by simp [hfree, hj.symm] }
  · refine hi.early (by rw [hpc]; rfl) rfl ?_ ?_ nofun
    · simp [ConnectionPc.holdsSet]
    · simpa [hpc, ConnectionPc.admitted] using hi.locks

theorem Inv.findLock (h : Inv s) (hpc : (s.conns i).pc = .findLock)
    (hsome : (s.clientLocks (s.conns i).clientID).isSome = true) :
    Inv (s.put i { s.conns i with pc := .lockClient }) := by
  have hi := h.conns i
  refine h.put rfl rfl (fun j _ => framed_refl s j) ?_
  refine hi.early (by rw [hpc]; rfl) rfl ?_ ?_ (fun _ => hsome)
  · simpa [hpc, ConnectionPc.holdsSet] using hi.setLock
  · simpa [hpc, ConnectionPc.admitted] using hi.locks

/-- A new mutex is nobody's. -/
theorem Inv.createLock (h : Inv s) (hpc : (s.conns i).pc = .findLock)
    (hnone : s.clientLocks (s.conns i).clientID = none) :
    Inv ((s.setClientLock (s.conns i).clientID none).put i
      { s.conns i with pc := .lockClient }) := by
  have hi := h.conns i
  have hframe : ∀ j, Framed s (s.setClientLock (s.conns i).clientID none) j :=
    fun j => framed_setClientLock (by simp [hnone]) nofun
  refine h.put rfl rfl (fun j _ => hframe j) ?_
  refine hi.early (by rw [hpc]; rfl) rfl ?_ ?_ (by simp)
  · simpa [setClientLock, hpc, ConnectionPc.holdsSet] using hi.setLock
  · intro c
    rw [(hframe i).locks c]
    simpa [hpc, ConnectionPc.admitted] using hi.locks c

/-- The thread gets the mutex.  It had no other, so it has only this one. -/
theorem Inv.lockClient (h : Inv s) (hpc : (s.conns i).pc = .lockClient)
    (hfree : s.clientLocks (s.conns i).clientID = some none) :
    Inv ((s.setClientLock (s.conns i).clientID (some i)).put i
      { s.conns i with pc := .unlockSet }) := by
  have hi := h.conns i
  refine h.put rfl rfl ?_ ?_
  · intro j hj
    exact framed_setClientLock (by simp [hfree]) (by simpa using hj.symm)
  · refine hi.early (by rw [hpc]; rfl) rfl ?_ ?_ nofun
    · simpa [setClientLock, hpc, ConnectionPc.holdsSet] using hi.setLock
    · intro c
      have hno := hi.locks c
      simp only [hpc, ConnectionPc.admitted, Bool.false_eq_true, false_and, iff_false] at hno
      by_cases hc : c = (s.conns i).clientID
      · simp [hc, ConnectionPc.admitted]
      · simp [setClientLock_ne s hc, hno, Ne.symm hc]

theorem Inv.unlockSet (h : Inv s) (hpc : (s.conns i).pc = .unlockSet) :
    Inv ({ s with setLock := none }.put i { s.conns i with pc := .keyExchange }) := by
  have hi := h.conns i
  have hheld : s.setLock = some i := hi.setLock.mpr (by rw [hpc]; rfl)
  refine h.put rfl rfl ?_ ?_
  · intro j hj
    exact { framed_refl s j with setLock := by simp [hheld, hj.symm] }
  · refine hi.early (by rw [hpc]; rfl) rfl ?_ ?_ nofun
    · simp [ConnectionPc.holdsSet]
    · simpa [hpc, ConnectionPc.admitted] using hi.locks

/-- Nobody else stands between its two ecalls under the ID whose key is written. -/
theorem Inv.keyExchange (h : Inv s) (hpc : (s.conns i).pc = .keyExchange) (key : κ) :
    Inv ({ s with
      sessionKeys := Function.update s.sessionKeys (s.conns i).clientID (some key) }.put i
        { s.conns i with pc := .login, derived := some key }) := by
  have hi := h.conns i
  have hadmitted : (s.conns i).pc.admitted = true := by rw [hpc]; rfl
  refine h.put rfl rfl ?_ ?_
  · intro j hj
    refine { framed_refl s j with keys := ?_ }
    intro hexchanged
    have hadmitted' : (s.conns j).pc.admitted = true := by
      revert hexchanged
      cases (s.conns j).pc <;> simp [ConnectionPc.exchanged, ConnectionPc.admitted]
    have hne : (s.conns j).clientID ≠ (s.conns i).clientID := fun hid =>
      hj (h.admitted_unique hadmitted' hadmitted hid)
    exact Function.update_of_ne hne _ _
  · exact
      { setLock := by simpa [hpc, ConnectionPc.holdsSet] using hi.setLock
        locks := by simpa [hpc, ConnectionPc.admitted] using hi.locks
        found := nofun
        keys := fun _ => ⟨key, Function.update_self _ _ _, rfl⟩
        uncopied := fun _ => hi.uncopied (by rw [hpc]; rfl)
        copied := by
          intro key' hkey'
          rw [hi.uncopied (by rw [hpc]; rfl)] at hkey'
          cases hkey' }

/-- A thread moves on with the locks it has. -/
theorem Inv.move (h : Inv s) {pc : ConnectionPc} (hset : pc.holdsSet = (s.conns i).pc.holdsSet)
    (hadmitted : pc.admitted = (s.conns i).pc.admitted) (hfound : pc ≠ .lockClient)
    (hexchanged : pc.exchanged = true → (s.conns i).pc.exchanged = true)
    (hbefore : pc.beforeInit = true → (s.conns i).pc.beforeInit = true) :
    Inv (s.put i { s.conns i with pc := pc }) := by
  have hi := h.conns i
  refine h.put rfl rfl (fun j _ => framed_refl s j) ?_
  exact
    { setLock := by rw [hset]; exact hi.setLock
      locks := by rw [hadmitted]; exact hi.locks
      found := fun hpc => absurd hpc hfound
      keys := fun hpc => hi.keys (hexchanged hpc)
      uncopied := fun hpc => hi.uncopied (hbefore hpc)
      copied := hi.copied }

theorem Inv.login (h : Inv s) (hpc : (s.conns i).pc = .login) (fileStatus : Bool) :
    Inv (s.put i { s.conns i with pc := if fileStatus then .initClient else .nonExist }) := by
  apply h.move <;> cases fileStatus <;>
    simp [hpc, ConnectionPc.holdsSet, ConnectionPc.admitted, ConnectionPc.exchanged,
      ConnectionPc.beforeInit]

theorem Inv.leave (h : Inv s) (hpc : (s.conns i).pc = .nonExist ∨ (s.conns i).pc = .serving) :
    Inv (s.put i { s.conns i with pc := .unlock }) := by
  rcases hpc with hpc | hpc <;> apply h.move <;>
    simp [hpc, ConnectionPc.holdsSet, ConnectionPc.admitted, ConnectionPc.exchanged,
      ConnectionPc.beforeInit]

/-- The key found is the key derived. -/
theorem Inv.initClient (h : Inv s) (hpc : (s.conns i).pc = .initClient) :
    ∃ key, s.sessionKeys (s.conns i).clientID = some key ∧
      Inv (s.put i { s.conns i with pc := .serving, sessionKey := some key }) := by
  have hi := h.conns i
  obtain ⟨key, hkey, hderived⟩ := hi.keys (by rw [hpc]; rfl)
  refine ⟨key, hkey, h.put rfl rfl (fun j _ => framed_refl s j) ?_⟩
  exact
    { setLock := by simpa [hpc, ConnectionPc.holdsSet] using hi.setLock
      locks := by simpa [hpc, ConnectionPc.admitted] using hi.locks
      found := nofun
      keys := nofun
      uncopied := nofun
      copied := by
        intro key' hkey'
        cases hkey'
        exact hderived }

theorem Inv.unlock (h : Inv s) (hpc : (s.conns i).pc = .unlock) :
    Inv ((s.setClientLock (s.conns i).clientID none).put i
      { s.conns i with pc := .returned }) := by
  have hi := h.conns i
  have hheld := h.clientLock (i := i) (by rw [hpc]; rfl)
  refine h.put rfl rfl ?_ ?_
  · intro j hj
    exact framed_setClientLock (by simp [hheld, hj.symm]) nofun
  · exact
      { setLock := by simpa [setClientLock, hpc, ConnectionPc.holdsSet] using hi.setLock
        locks := by
          intro c
          by_cases hc : c = (s.conns i).clientID
          · simp [hc, ConnectionPc.admitted]
          · have hother := hi.locks c
            simp only [hpc, Ne.symm hc, and_false, iff_false] at hother
            simp [setClientLock_ne s hc, hother, ConnectionPc.admitted]
        found := nofun
        keys := nofun
        uncopied := nofun
        copied := hi.copied }

theorem Inv.advance (h : Inv s) (hstep : s.advance i = some t) : Inv t := by
  unfold Admission.advance at hstep
  dsimp only at hstep
  cases hpc : (s.conns i).pc with
  | lockSet =>
      rw [hpc] at hstep
      dsimp only at hstep
      split at hstep <;> cases hstep
      exact h.lockSet hpc ‹_›
  | findLock =>
      rw [hpc] at hstep
      dsimp only at hstep
      split at hstep <;> cases hstep
      · next hsome => exact h.findLock hpc (by simp [hsome])
      · next hnone => exact h.createLock hpc hnone
  | lockClient =>
      rw [hpc] at hstep
      dsimp only at hstep
      split at hstep <;> cases hstep
      exact h.lockClient hpc ‹_›
  | unlockSet =>
      rw [hpc] at hstep
      cases hstep
      exact h.unlockSet hpc
  | nonExist =>
      rw [hpc] at hstep
      cases hstep
      exact h.leave (.inl hpc)
  | initClient =>
      obtain ⟨key, hkey, hinv⟩ := h.initClient hpc
      rw [hpc, hkey] at hstep
      cases hstep
      exact hinv
  | serving =>
      rw [hpc] at hstep
      cases hstep
      exact h.leave (.inr hpc)
  | unlock =>
      rw [hpc] at hstep
      cases hstep
      exact h.unlock hpc
  | accepted | keyExchange | login | returned =>
      rw [hpc] at hstep
      cases hstep

theorem Inv.step (h : Inv s) {a : AdmissionAction κ} (hstep : step s a = some t) : Inv t := by
  unfold Admission.step at hstep
  split at hstep
  · cases hstep
  · cases a with
    | receive i clientID =>
        simp only at hstep
        split at hstep <;> cases hstep
        exact h.receive ‹_› clientID
    | keyExchange i key =>
        simp only at hstep
        split at hstep <;> cases hstep
        exact h.keyExchange ‹_› key
    | login i fileStatus =>
        simp only at hstep
        split at hstep <;> cases hstep
        exact h.login ‹_› fileStatus
    | advance i => exact h.advance hstep
    | fail i =>
        cases hstep
        exact ⟨fun j => { h.conns j with }, nofun⟩

/-- Every state of every run. -/
theorem inv_of_reaches (hrun : Runs.Reaches Admission.step start s) : Inv s :=
  hrun.invariant (fun _ _ _ h hstep => h.step hstep) inv_start

/-- **Session keys are bound to connections.**  However the connections interleave,
the key that `Ecall_Init_Client` copied for one of them is the key that its own
`Ecall_Session_Key_Exchange` derived, and the branch for a missing key is never
taken. -/
theorem session_key_binding (s : Admission κ) (hrun : Runs.Reaches Admission.step start s) :
    (∀ i key, (s.conns i).sessionKey = some key → (s.conns i).derived = some key) ∧
      s.exit ≠ some .noSessionKey := by
  have h := inv_of_reaches hrun
  exact ⟨fun i => (h.conns i).copied, h.exit⟩

/-- Two clients with one ID.  The first asks for a file that does not exist; the
second has the set lock and waits for the mutex meanwhile. -/
theorem session_key_binding_same_id :
    ∃ s : Admission Nat, Runs.Reaches Admission.step start s ∧
      (s.conns 0).clientID = (s.conns 1).clientID ∧ (s.conns 0).pc = .returned ∧
      (s.conns 1).pc = .serving ∧ (s.conns 1).derived = some 2 ∧
      (s.conns 1).sessionKey = (s.conns 1).derived := by
  let schedule : List (AdmissionAction Nat) :=
    [.receive 0 7, .receive 1 7, .advance 0, .advance 0, .advance 0, .advance 0, .advance 1,
      .advance 1, .keyExchange 0 1, .login 0 false, .advance 0, .advance 0, .advance 1,
      .advance 1, .keyExchange 1 2, .login 1 true, .advance 1]
  obtain ⟨s, hs⟩ : ∃ s, Runs.run Admission.step (start : Admission Nat) schedule = some s :=
    Option.isSome_iff_exists.mp (by decide)
  have hend : (s.conns 0).clientID = (s.conns 1).clientID ∧ (s.conns 0).pc = .returned ∧
      (s.conns 1).pc = .serving ∧ (s.conns 1).derived = some 2 ∧
      (s.conns 1).sessionKey.isSome := by
    cases hs
    decide
  obtain ⟨hid, hreturned, hserving, hderived, hcopied⟩ := hend
  obtain ⟨key, hkey⟩ := Option.isSome_iff_exists.mp hcopied
  have hbound := (session_key_binding s (Runs.reaches_of_run hs)).1 1 key hkey
  exact ⟨s, Runs.reaches_of_run hs, hid, hreturned, hserving, hderived, hkey.trans hbound.symm⟩

/-! ## Waiting for a client with another ID -/

/-- Connection `i` can take its next step now. -/
def canAdvance (s : Admission κ) (i : Nat) : Prop := (step s (.advance i)).isSome = true

/-- No admitted connection has this client ID. -/
def NotServed (s : Admission κ) (clientID : Nat) : Prop :=
  ∀ j, (s.conns j).pc.admitted = true → (s.conns j).clientID ≠ clientID

/-- A connection whose client ID is not being served can move on, or the one with
the set lock can. -/
def Independent (s : Admission κ) : Prop :=
  s.exit = none → ∀ i, (s.conns i).pc.waiting = true → NotServed s (s.conns i).clientID →
    canAdvance s i ∨ ∃ holder, s.setLock = some holder ∧ canAdvance s holder

/-- A connection waits with the set lock for a mutex that an admitted one has. -/
def Blocking (s : Admission κ) (holder : Nat) : Prop :=
  s.setLock = some holder ∧ (s.conns holder).pc = .lockClient ∧
    ¬ NotServed s (s.conns holder).clientID

/-- The mutex of an ID that is not served is free, if it exists. -/
theorem Inv.lock_free (h : Inv s) {clientID : Nat} (hnot : NotServed s clientID) :
    (s.clientLocks clientID).join = none := by
  cases hlock : (s.clientLocks clientID).join with
  | none => rfl
  | some j =>
      have hheld := ((h.conns j).locks clientID).mp (Option.join_eq_some_iff.mp hlock)
      exact absurd hheld.2 (hnot j hheld.1)

theorem Inv.notServed_of_free (h : Inv s) {clientID : Nat}
    (hfree : (s.clientLocks clientID).join = none) : NotServed s clientID := by
  intro j hadmitted hid
  have hheld := ((h.conns j).locks clientID).mpr ⟨hadmitted, hid⟩
  simp [hheld] at hfree

/-- Only two steps can wait: for the set lock, and for the mutex. -/
theorem Inv.canAdvance_lockClient (h : Inv s) (hlive : s.exit = none)
    (hpc : (s.conns i).pc = .lockClient) :
    canAdvance s i ↔ NotServed s (s.conns i).clientID := by
  obtain ⟨lock, hlock⟩ := Option.isSome_iff_exists.mp ((h.conns i).found hpc)
  have hstep : canAdvance s i ↔ lock = none := by
    cases lock <;> simp [canAdvance, Admission.step, Admission.advance, hlive, hpc, hlock]
  rw [hstep]
  constructor
  · intro hnone
    exact h.notServed_of_free (by simp [hlock, hnone])
  · intro hnot
    simpa [hlock] using h.lock_free hnot

theorem canAdvance_lockSet (hlive : s.exit = none) (hpc : (s.conns i).pc = .lockSet) :
    canAdvance s i ↔ s.setLock = none := by
  cases hlock : s.setLock <;> simp [canAdvance, step, advance, hlive, hpc, hlock]

theorem canAdvance_findLock (hlive : s.exit = none) (hpc : (s.conns i).pc = .findLock) :
    canAdvance s i := by
  cases hlock : s.clientLocks (s.conns i).clientID <;>
    simp [canAdvance, step, advance, hlive, hpc, hlock]

theorem canAdvance_unlockSet (hlive : s.exit = none) (hpc : (s.conns i).pc = .unlockSet) :
    canAdvance s i := by
  simp [canAdvance, step, advance, hlive, hpc]

/-- The holder of the set lock can move on unless it waits for a mutex. -/
theorem Inv.holder_canAdvance (h : Inv s) (hlive : s.exit = none) {holder : Nat}
    (hset : s.setLock = some holder) : canAdvance s holder ↔ ¬ Blocking s holder := by
  have hholds := (h.conns holder).setLock.mp hset
  cases hpc : (s.conns holder).pc <;> simp [hpc, ConnectionPc.holdsSet] at hholds
  case findLock => simp [canAdvance_findLock hlive hpc, Blocking, hpc]
  case unlockSet => simp [canAdvance_unlockSet hlive hpc, Blocking, hpc]
  case lockClient =>
    rw [h.canAdvance_lockClient hlive hpc]
    simp [Blocking, hset, hpc]

/-- **When clients are independent.**  Exactly as long as no connection waits for a
mutex with the set lock while one with an unserved ID waits for the set lock. -/
theorem Inv.independent_iff (h : Inv s) (hlive : s.exit = none) :
    Independent s ↔ ¬ ∃ holder i, Blocking s holder ∧ (s.conns i).pc = .lockSet ∧
      NotServed s (s.conns i).clientID := by
  constructor
  · rintro hind ⟨holder, i, hblock, hpc, hnot⟩
    rcases hind hlive i (by rw [hpc]; rfl) hnot with hadv | ⟨holder', hset, hadv⟩
    · have hfree := (canAdvance_lockSet hlive hpc).mp hadv
      rw [hblock.1] at hfree
      cases hfree
    · cases hblock.1.symm.trans hset
      exact (h.holder_canAdvance hlive hset).mp hadv hblock
  · intro hnone _ i hwaiting hnot
    cases hpc : (s.conns i).pc <;> simp [hpc, ConnectionPc.waiting] at hwaiting
    case findLock => exact .inl (canAdvance_findLock hlive hpc)
    case lockClient => exact .inl ((h.canAdvance_lockClient hlive hpc).mpr hnot)
    case lockSet =>
      cases hset : s.setLock with
      | none => exact .inl ((canAdvance_lockSet hlive hpc).mpr hset)
      | some holder =>
          refine .inr ⟨holder, rfl, (h.holder_canAdvance hlive hset).mpr ?_⟩
          intro hblock
          exact hnone ⟨holder, i, hblock, hpc, hnot⟩

/-- Client 2 waits for client 1, whose second connection waits for its first. -/
theorem not_independent_three_connections :
    ¬ ∀ s : Admission Nat, Runs.Reaches Admission.step start s → Independent s := by
  intro hall
  let schedule : List (AdmissionAction Nat) :=
    [.receive 0 1, .receive 1 1, .receive 2 2, .advance 0, .advance 0, .advance 0, .advance 0,
      .advance 1, .advance 1]
  obtain ⟨s, hs⟩ : ∃ s, Runs.run Admission.step (start : Admission Nat) schedule = some s :=
    Option.isSome_iff_exists.mp (by decide)
  have hrun := Runs.reaches_of_run hs
  have hstate : s.exit = none ∧ s.setLock = some 1 ∧ (s.conns 0).pc.admitted = true ∧
      (s.conns 1).pc = .lockClient ∧ (s.conns 0).clientID = (s.conns 1).clientID ∧
      (s.conns 2).pc = .lockSet ∧ (s.clientLocks (s.conns 2).clientID).join = none := by
    cases hs
    decide
  obtain ⟨hlive, hset, hadmitted, hpc, hid, hpc', hfree⟩ := hstate
  have hinv := inv_of_reaches hrun
  refine (hinv.independent_iff hlive).mp (hall s hrun) ⟨1, 2, ⟨hset, hpc, ?_⟩, hpc', ?_⟩
  · intro hnot
    exact hnot 0 hadmitted hid
  · exact hinv.notServed_of_free hfree

/-- A connection takes the set lock only when its client ID is not being served. -/
def takesFreeID (s : Admission κ) : AdmissionAction κ → Bool
  | .advance i => (s.conns i).pc != .lockSet ||
      (s.clientLocks (s.conns i).clientID).join.isNone
  | _ => true

/-- The ID of the connection with the set lock stays unserved until it locks the
mutex itself. -/
def HolderFree (s : Admission κ) : Prop :=
  ∀ i, (s.conns i).pc = .findLock ∨ (s.conns i).pc = .lockClient →
    (s.clientLocks (s.conns i).clientID).join = none

theorem holderFree_start : HolderFree (start : Admission κ) :=
  fun _ _ => rfl

/-- A step that gives no mutex away and lets no other connection to the set lock. -/
theorem HolderFree.put (h : HolderFree s) (hconns : t.conns = s.conns)
    (hlocks : ∀ c, (s.clientLocks c).join = none → (t.clientLocks c).join = none)
    (hself : conn.pc = .findLock ∨ conn.pc = .lockClient →
      (t.clientLocks conn.clientID).join = none) : HolderFree (t.put i conn) := by
  intro j hpc
  by_cases hj : j = i
  · subst hj
    rw [put_conns_self] at hpc ⊢
    exact hself hpc
  · rw [put_conns_ne t hj, hconns] at hpc ⊢
    exact hlocks _ (h j hpc)

theorem setClientLock_none_join (s : Admission κ) (c c' : Nat)
    (h : (s.clientLocks c').join = none) :
    ((s.setClientLock c none).clientLocks c').join = none := by
  by_cases hc : c' = c
  · simp [hc]
  · rwa [setClientLock_ne s hc]

/-- When a mutex is given away, its new holder is the only one with the set lock. -/
theorem HolderFree.lockClient (h : Inv s) (hpc : (s.conns i).pc = .lockClient) :
    HolderFree ((s.setClientLock (s.conns i).clientID (some i)).put i
      { s.conns i with pc := .unlockSet }) := by
  intro j hpc'
  by_cases hj : j = i
  · subst hj
    rw [put_conns_self] at hpc'
    rcases hpc' with hpc' | hpc' <;> cases hpc'
  · rw [put_conns_ne _ hj] at hpc'
    have hi : s.setLock = some i := (h.conns i).setLock.mpr (by rw [hpc]; rfl)
    have hj' : s.setLock = some j := (h.conns j).setLock.mpr (by
      rcases hpc' with hpc' | hpc'
      · rw [show (s.conns j).pc = .findLock from hpc']; rfl
      · rw [show (s.conns j).pc = .lockClient from hpc']; rfl)
    rw [hi] at hj'
    exact absurd (Option.some.inj hj').symm hj

theorem HolderFree.advance (h : HolderFree s) (hinv : Inv s)
    (hfree : takesFreeID s (.advance i) = true) (hstep : s.advance i = some t) :
    HolderFree t := by
  unfold Admission.advance at hstep
  dsimp only at hstep
  cases hpc : (s.conns i).pc with
  | lockSet =>
      rw [hpc] at hstep
      dsimp only at hstep
      split at hstep <;> cases hstep
      have hjoin : (s.clientLocks (s.conns i).clientID).join = none := by
        simpa [takesFreeID, hpc] using hfree
      exact h.put rfl (fun _ => id) fun _ => hjoin
  | findLock =>
      have hjoin := h i (.inl hpc)
      rw [hpc] at hstep
      dsimp only at hstep
      split at hstep <;> cases hstep
      · exact h.put rfl (fun _ => id) fun _ => hjoin
      · exact h.put rfl (setClientLock_none_join s _) fun _ => by simp
  | lockClient =>
      rw [hpc] at hstep
      dsimp only at hstep
      split at hstep <;> cases hstep
      exact .lockClient hinv hpc
  | unlockSet | nonExist | serving =>
      rw [hpc] at hstep
      cases hstep
      exact h.put rfl (fun _ => id) nofun
  | initClient =>
      rw [hpc] at hstep
      dsimp only at hstep
      split at hstep <;> cases hstep
      · exact h
      · exact h.put rfl (fun _ => id) nofun
  | unlock =>
      rw [hpc] at hstep
      cases hstep
      exact h.put rfl (setClientLock_none_join s _) nofun
  | accepted | keyExchange | login | returned =>
      rw [hpc] at hstep
      cases hstep

theorem HolderFree.step (h : HolderFree s) (hinv : Inv s) {a : AdmissionAction κ}
    (hfree : takesFreeID s a = true) (hstep : step s a = some t) : HolderFree t := by
  unfold Admission.step at hstep
  split at hstep
  · cases hstep
  · cases a with
    | receive i clientID =>
        simp only at hstep
        split at hstep <;> cases hstep
        exact h.put rfl (fun _ => id) nofun
    | keyExchange i key =>
        simp only at hstep
        split at hstep <;> cases hstep
        exact h.put rfl (fun _ => id) nofun
    | login i fileStatus =>
        simp only at hstep
        split at hstep <;> cases hstep
        exact h.put rfl (fun _ => id) (by cases fileStatus <;> nofun)
    | advance i => exact h.advance hinv hfree hstep
    | fail i =>
        cases hstep
        exact h

/-- **Independence of clients.**  In every run in which no connection takes the set
lock while its client ID is being served, a connection whose ID is not being served
is not held up by one that is: it can move on, or the one with the set lock can. -/
theorem independent_of_free_ids (s : Admission κ)
    (hrun : Runs.Reaches (Runs.restrict takesFreeID Admission.step) start s) :
    Independent s := by
  have hboth : Inv s ∧ HolderFree s :=
    hrun.invariant (P := fun s => Inv s ∧ HolderFree s)
      (by
        intro s a t h hstep
        obtain ⟨hfree, hstep⟩ := Runs.restrict_eq_some.mp hstep
        exact ⟨h.1.step hstep, h.2.step h.1 hfree hstep⟩)
      ⟨inv_start, holderFree_start⟩
  intro hlive
  refine (hboth.1.independent_iff hlive).mpr ?_ hlive
  rintro ⟨holder, i, hblock, -⟩
  exact hblock.2.2 (hboth.1.notServed_of_free (hboth.2 holder (.inr hblock.2.1)))

/-- One client is being served while another, with an ID of its own, has the set
lock and a third waits for it. -/
theorem independent_of_free_ids_two_clients :
    ∃ s : Admission Nat, Runs.Reaches (Runs.restrict takesFreeID Admission.step) start s ∧
      (s.conns 0).pc.admitted = true ∧ s.setLock = some 1 ∧
      (s.conns 1).pc = .lockClient ∧ (s.conns 2).pc = .lockSet ∧ Independent s := by
  let schedule : List (AdmissionAction Nat) :=
    [.receive 0 1, .receive 1 2, .receive 2 3, .advance 0, .advance 0, .advance 0, .advance 0,
      .advance 1, .advance 1]
  obtain ⟨s, hs⟩ : ∃ s, Runs.run (Runs.restrict takesFreeID Admission.step)
      (start : Admission Nat) schedule = some s := Option.isSome_iff_exists.mp (by decide)
  have hrun := Runs.reaches_of_run hs
  have hstate : (s.conns 0).pc.admitted = true ∧ s.setLock = some 1 ∧
      (s.conns 1).pc = .lockClient ∧ (s.conns 2).pc = .lockSet := by
    cases hs
    decide
  obtain ⟨hadmitted, hset, hpc, hpc'⟩ := hstate
  exact ⟨s, hrun, hadmitted, hset, hpc, hpc', independent_of_free_ids s hrun⟩

end Admission

end Debe
