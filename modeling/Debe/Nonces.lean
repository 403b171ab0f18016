import Debe.Concurrent
import Debe.RecvDecoder

/-!
# The nonces of the enclave

Three paths of the enclave encrypt in a GCM mode.  `EncryptWithKey` takes the
recipe batches under the client's master key and `SessionKeyEnc` the restore
messages under the session key; both use `iv_`, which the constructor of
`EcallCrypto` fills with zeros and nothing writes again.  `EncryptWithKeyIV` takes
the chunks under the enclave key, with the IV that `PickNewIV` has just advanced.

The machine below keeps the list of all these calls.  Its operations are the
functions that reach a call, with whatever arguments an index design or a recipe
gives them, so its runs are those of every design and every interleaving; at the
end the concurrent uploads and the restore loops are seen to be such runs.

`CIPHER_TYPE` is `AES_256_GCM` and `SessionKeyEnc` has its own `AES_128_GCM`.
-/

namespace Debe.Nonces

/-- `iv_`. -/
def fixedIV : Bytes := List.replicate cryptoBlockSize 0

/-- Which of the three functions made a call. -/
inductive Purpose
  | recipe
  | message
  | chunk
  deriving DecidableEq, Repr

/-- One encryption in a GCM mode. -/
structure Call where
  session : Nat
  purpose : Purpose
  key : Bytes
  iv : Bytes
  deriving DecidableEq, Repr

/-- Two calls that have to use different IVs: two recipe batches of a client, or two
messages or two chunks of a session. -/
def Call.Related (a b : Call) : Prop :=
  a.purpose = b.purpose ∧ a.key = b.key ∧ (a.purpose = .recipe ∨ a.session = b.session)

instance (a b : Call) : Decidable (a.Related b) :=
  inferInstanceAs (Decidable (_ ∧ _ ∧ (_ ∨ _)))

/-- Only recipe batches are related across sessions. -/
theorem Call.Related.session {a b : Call} (h : a.Related b) (hb : b.purpose ≠ .recipe) :
    a.session = b.session := by
  obtain ⟨hpurpose, -, hrecipe | hsession⟩ := h
  · exact absurd (hpurpose.symm.trans hrecipe) hb
  · exact hsession

/-- No two related calls use the same IV. -/
def NoReuse (calls : List Call) : Prop :=
  calls.Pairwise fun a b => a.Related b → a.iv ≠ b.iv

instance (calls : List Call) : Decidable (NoReuse calls) :=
  inferInstanceAs (Decidable (calls.Pairwise _))

/-- An `EnclaveClient`, with the half that its session uses. -/
inductive Session
  | upload (c : Client)
  | restore (sessionKey : Bytes) (s : Restore)

/-- The sessions, what their uploads share, and all calls so far. -/
structure Enclave where
  disk : Disk
  stats : Stats
  sessions : Nat → Option Session
  calls : List Call

def Enclave.init : Enclave where
  disk := { written := [], draws := 0, saved := [] }
  stats := {}
  sessions := fun _ => none
  calls := []

/-- What a session can do next.  `recover` is one turn of the loops over the
collected entries, in the tail with its `endFlag`; `sendFinal` is the tail without
collected entries. -/
inductive Op (p : Params)
  | loginUpload (i : Nat) (session : UploadSession p)
  | loginRestore (i : Nat) (sessionKey : Bytes)
  | storeUnique (i : Nat) (chunk : Bytes)
  | recordChunk (i : Nat) (fp : Bytes) (chunkSize : Nat) (chunkAddr : RecipeEntry)
  | processRecipeEnd (i : Nat) (recipeHead : FileRecipeHead)
  | processLastContainer (i : Nat)
  | recover (i : Nat) (chunkBuffer : Bytes) (chunkSize : Nat) (endFlag : Bool)
  | sendFinal (i : Nat)

/-- The recipe batch gets full with the next address. -/
def fillsBatch (p : Params) (c : Client) : Prop :=
  (c.inRecipe.length + 1) % p.sendRecipeBatchSize = 0

instance (p : Params) (c : Client) : Decidable (fillsBatch p c) :=
  inferInstanceAs (Decidable (_ = _))

/-- The send buffer leaves after the next chunk. -/
def sendsNext (p : Params) (s : Restore) (endFlag : Bool) : Prop :=
  (s.restoreChunkBuf.currentItemNum + 1) % p.sendChunkBatchSize = 0 ∨ endFlag = true

instance (p : Params) (s : Restore) (endFlag : Bool) : Decidable (sendsNext p s endFlag) :=
  inferInstanceAs (Decidable (_ ∨ _))

/-- `EncryptWithKeyIV` of a chunk. -/
def chunkCall (p : Params) (i : Nat) (c : Client) : Call :=
  ⟨i, .chunk, p.enclaveKey, (pickNewIV c.iv).toBytes⟩

/-- `EncryptWithKey` of a recipe batch. -/
def recipeCall (i : Nat) (c : Client) : Call :=
  ⟨i, .recipe, c.masterKey, fixedIV⟩

/-- `SessionKeyEnc` of a restore message. -/
def messageCall (i : Nat) (sessionKey : Bytes) : Call :=
  ⟨i, .message, sessionKey, fixedIV⟩

/-- Let an upload session act; another kind of session does not have this operation. -/
def Enclave.onUpload (e : Enclave) (i : Nat) (f : Upload → Upload × List Call) : Enclave :=
  match e.sessions i with
  | some (.upload c) =>
      let r := f ⟨c, e.disk, e.stats⟩
      { disk := r.1.disk
        stats := r.1.stats
        sessions := Function.update e.sessions i (some (.upload r.1.client))
        calls := e.calls ++ r.2 }
  | _ => e

/-- Let a restore session act. -/
def Enclave.onRestore (e : Enclave) (i : Nat) (f : Bytes → Restore → Restore × List Call) :
    Enclave :=
  match e.sessions i with
  | some (.restore sessionKey s) =>
      let r := f sessionKey s
      { e with
        sessions := Function.update e.sessions i (some (.restore sessionKey r.1))
        calls := e.calls ++ r.2 }
  | _ => e

/-- Let a session in, under a number not used before. -/
def Enclave.enter (e : Enclave) (i : Nat) (disk : Disk) (session : Session) : Enclave :=
  match e.sessions i with
  | some _ => e
  | none => { e with
      disk := disk
      sessions := Function.update e.sessions i (some session) }

/-- `ProcessUniqueChunk` encrypts the chunk. -/
def storeAct (p : Params) (i : Nat) (chunk : Bytes) (u : Upload) : Upload × List Call :=
  ((storeUnique p chunk u).2, [chunkCall p i u.client])

/-- `UpdateFileRecipe` encrypts a batch that has become full. -/
def recordAct (p : Params) (i : Nat) (fp : Bytes) (chunkSize : Nat) (chunkAddr : RecipeEntry)
    (u : Upload) : Upload × List Call :=
  (recordChunk p fp chunkSize chunkAddr u,
    if fillsBatch p u.client then [recipeCall i u.client] else [])

/-- `ProcessTailBatch` encrypts what is left of the recipe. -/
def recipeEndAct (p : Params) (i : Nat) (recipeHead : FileRecipeHead) (u : Upload) :
    Upload × List Call :=
  (processRecipeEnd p recipeHead u,
    if u.client.inRecipe ≠ [] then [recipeCall i u.client] else [])

/-- Handing over the last container encrypts nothing. -/
def lastContainerAct (p : Params) (u : Upload) : Upload × List Call :=
  (processLastContainer p u, [])

/-- `RecoverOneChunk`, and the message if the buffer is full or the file at its end. -/
def recoverAndSend (p : Params) (i : Nat) (chunkBuffer : Bytes) (chunkSize : Nat)
    (endFlag : Bool) (sessionKey : Bytes) (s : Restore) : Restore × List Call :=
  let s₁ := { s with
    restoreChunkBuf := recoverOneChunk p chunkBuffer chunkSize s.restoreChunkBuf }
  if s₁.restoreChunkBuf.currentItemNum % p.sendChunkBatchSize = 0 ∨ endFlag = true then
    (s₁.send (enclaveCodec p sessionKey)
      (if endFlag = true then .serverRestoreFinal else .serverRestoreChunk),
      [messageCall i sessionKey])
  else (s₁, [])

/-- One step. -/
def Enclave.step (p : Params) (e : Enclave) : Op p → Enclave
  | .loginUpload i session =>
      let u := login p ⟨.init, ∅, e.disk, e.stats, ∅⟩ session
      e.enter i u.disk (.upload u.client)
  | .loginRestore i sessionKey => e.enter i e.disk (.restore sessionKey .init)
  | .storeUnique i chunk => e.onUpload i (storeAct p i chunk)
  | .recordChunk i fp chunkSize chunkAddr =>
      e.onUpload i (recordAct p i fp chunkSize chunkAddr)
  | .processRecipeEnd i recipeHead => e.onUpload i (recipeEndAct p i recipeHead)
  | .processLastContainer i => e.onUpload i (lastContainerAct p)
  | .recover i chunkBuffer chunkSize endFlag =>
      e.onRestore i (recoverAndSend p i chunkBuffer chunkSize endFlag)
  | .sendFinal i =>
      e.onRestore i fun sessionKey s =>
        (s.send (enclaveCodec p sessionKey) .serverRestoreFinal, [messageCall i sessionKey])

/-- The state after a sequence of operations. -/
def run (p : Params) (ops : List (Op p)) : Enclave :=
  ops.foldl (Enclave.step p) .init

/-- How many chunks a session has encrypted. -/
def chunksOf {p : Params} (i : Nat) (ops : List (Op p)) : Nat :=
  ops.countP fun
    | .storeUnique j _ => i = j
    | _ => false

/-- A recipe batch of the session is in its recipe file. -/
def HasBatch (c : Client) : Prop := fileRecipeHeadSize < c.recipeFile.length

/-- None of the client's sessions has put a recipe batch into its file. -/
def NoBatchYet (e : Enclave) (masterKey : Bytes) : Prop :=
  ∀ j c, e.sessions j = some (.upload c) → c.masterKey = masterKey → ¬ HasBatch c

/-- An operation that would encrypt a recipe batch comes before any other batch of
the client, and one that would send a restore message before any other of the
session. -/
def First (p : Params) (e : Enclave) : Op p → Prop
  | .recordChunk i _ _ _ => ∀ c, e.sessions i = some (.upload c) → fillsBatch p c →
      NoBatchYet e c.masterKey
  | .processRecipeEnd i _ => ∀ c, e.sessions i = some (.upload c) → c.inRecipe ≠ [] →
      NoBatchYet e c.masterKey
  | .recover i _ _ endFlag => ∀ sessionKey s, e.sessions i = some (.restore sessionKey s) →
      sendsNext p s endFlag → s.sent = []
  | .sendFinal i => ∀ sessionKey s, e.sessions i = some (.restore sessionKey s) → s.sent = []
  | _ => True

/-! ## The IVs of a session's chunks -/

/-- The IV that was current `m` chunks ago. -/
def ivBefore (m : Nat) (iv : IV) : IV := { iv with lo := iv.lo - UInt64.ofNat m }

theorem toBytes_injective : Function.Injective IV.toBytes := by
  intro a b h
  have hcut := List.append_inj h (by simp)
  have hword : ∀ x y : UInt64,
      LittleEndian.encode 8 x.toNat = LittleEndian.encode 8 y.toNat → x = y := by
    intro x y hxy
    have hback := congrArg LittleEndian.decode hxy
    rw [LittleEndian.decode_encode_of_lt x.toNat_lt,
      LittleEndian.decode_encode_of_lt y.toNat_lt] at hback
    exact UInt64.toNat_inj.mp hback
  obtain ⟨alo, ahi⟩ := a
  obtain ⟨blo, bhi⟩ := b
  have hlo : alo = blo := hword _ _ hcut.1
  have hhi : ahi = bhi := hword _ _ hcut.2
  rw [hlo, hhi]

/-- One chunk later the same IV lies one further back. -/
theorem ivBefore_pickNewIV (m : Nat) (iv : IV) :
    ivBefore (m + 1) (pickNewIV iv) = ivBefore m iv := by
  have hlo : iv.lo + 1 - UInt64.ofNat (m + 1) = iv.lo - UInt64.ofNat m := by
    rw [UInt64.ofNat_add]
    grind
  simp only [ivBefore, pickNewIV, hlo]

/-- The counter does not come back to a value it had fewer than `2 ^ 64` chunks ago. -/
theorem ivBefore_ne (m : Nat) (iv : IV) (hm : m + 1 < 2 ^ 64) :
    ivBefore m iv ≠ pickNewIV iv := by
  intro h
  have hlo : iv.lo - UInt64.ofNat m = iv.lo + 1 := congrArg IV.lo h
  have hzero : UInt64.ofNat (m + 1) = 0 := by
    rw [UInt64.ofNat_add]
    grind
  have hnat := congrArg UInt64.toNat hzero
  rw [UInt64.toNat_ofNat', Nat.mod_eq_of_lt hm] at hnat
  exact absurd hnat (Nat.succ_ne_zero m)

/-! ## The calls of a session -/

/-- The calls that a session has made. -/
def logOf (i : Nat) (calls : List Call) : List Call :=
  calls.filter fun call => call.session = i

theorem mem_logOf {i : Nat} {calls : List Call} {call : Call} :
    call ∈ logOf i calls ↔ call ∈ calls ∧ call.session = i := by
  simp [logOf]

/-- The calls of an upload session after `n` chunks. -/
structure UploadLog (p : Params) (c : Client) (n : Nat) (log : List Call) : Prop where
  head : fileRecipeHeadSize ≤ c.recipeFile.length
  batch : (∃ call ∈ log, call.purpose = .recipe) ↔ HasBatch c
  recipe : ∀ call ∈ log, call.purpose = .recipe → call.key = c.masterKey ∧ call.iv = fixedIV
  chunk : ∀ call ∈ log, call.purpose = .chunk → ∃ m < n, call.iv = (ivBefore m c.iv).toBytes
  message : ∀ call ∈ log, call.purpose ≠ .message

/-- The calls of a restore session: one for each message. -/
structure RestoreLog (sessionKey : Bytes) (s : Restore) (log : List Call) : Prop where
  sent : log.length = s.sent.length
  message : ∀ call ∈ log, call.purpose = .message ∧ call.key = sessionKey ∧ call.iv = fixedIV

/-- What the calls of a session look like, whatever its kind. -/
def SessionLog (p : Params) (n : Nat) (log : List Call) : Option Session → Prop
  | none => log = []
  | some (.upload c) => UploadLog p c n log
  | some (.restore sessionKey s) => RestoreLog sessionKey s log

/-- Every session's calls are as they should be. -/
def Logged (p : Params) (ops : List (Op p)) (e : Enclave) : Prop :=
  ∀ i, SessionLog p (chunksOf i ops) (logOf i e.calls) (e.sessions i)

section Upload

variable {p : Params} {c : Client} {n : Nat} {log : List Call}

/-- A session may have encrypted fewer chunks than counted. -/
theorem UploadLog.mono (h : UploadLog p c n log) {m : Nat} (hle : n ≤ m) :
    UploadLog p c m log where
  head := h.head
  batch := h.batch
  recipe := h.recipe
  chunk := by
    intro call hcall hpurpose
    obtain ⟨k, hk, hiv⟩ := h.chunk call hcall hpurpose
    exact ⟨k, by omega, hiv⟩
  message := h.message

/-- What is not about keys, IV or recipe file leaves the log as it is. -/
theorem UploadLog.congr (h : UploadLog p c n log) {c' : Client}
    (hkey : c'.masterKey = c.masterKey) (hiv : c'.iv = c.iv)
    (hfile : c'.recipeFile.length = c.recipeFile.length) : UploadLog p c' n log where
  head := hfile ▸ h.head
  batch := by
    rw [HasBatch, hfile]
    exact h.batch
  recipe := hkey ▸ h.recipe
  chunk := hiv ▸ h.chunk
  message := h.message

/-- A chunk was encrypted. -/
theorem UploadLog.chunkCall (h : UploadLog p c n log) (i : Nat) {c' : Client}
    (hkey : c'.masterKey = c.masterKey) (hiv : c'.iv = pickNewIV c.iv)
    (hfile : c'.recipeFile = c.recipeFile) :
    UploadLog p c' (n + 1) (log ++ [Nonces.chunkCall p i c]) where
  head := hfile ▸ h.head
  batch := by
    rw [HasBatch, hfile]
    refine Iff.trans ?_ h.batch
    simp [Nonces.chunkCall]
  recipe := by
    intro call hcall hpurpose
    rcases List.mem_append.mp hcall with hcall | hcall
    · exact hkey ▸ h.recipe call hcall hpurpose
    · rw [List.mem_singleton.mp hcall] at hpurpose
      cases hpurpose
  chunk := by
    intro call hcall hpurpose
    rw [hiv]
    rcases List.mem_append.mp hcall with hcall | hcall
    · obtain ⟨m, hm, hbefore⟩ := h.chunk call hcall hpurpose
      exact ⟨m + 1, by omega, by rw [ivBefore_pickNewIV, hbefore]⟩
    · rw [List.mem_singleton.mp hcall]
      exact ⟨0, by omega, by simp [Nonces.chunkCall, ivBefore]⟩
  message := List.forall_mem_append.mpr
    ⟨h.message, List.forall_mem_singleton.mpr (fun hne => by cases hne)⟩

/-- A recipe batch was encrypted and is in the file. -/
theorem UploadLog.recipeCall (h : UploadLog p c n log) (i : Nat) {c' : Client}
    (hkey : c'.masterKey = c.masterKey) (hiv : c'.iv = c.iv)
    (hfile : c.recipeFile.length < c'.recipeFile.length) :
    UploadLog p c' n (log ++ [Nonces.recipeCall i c]) where
  head := h.head.trans hfile.le
  batch := by
    have hbatch : HasBatch c' := lt_of_le_of_lt h.head hfile
    exact iff_of_true ⟨Nonces.recipeCall i c, by simp, rfl⟩ hbatch
  recipe := by
    intro call hcall hpurpose
    rw [hkey]
    rcases List.mem_append.mp hcall with hcall | hcall
    · exact h.recipe call hcall hpurpose
    · rw [List.mem_singleton.mp hcall]
      exact ⟨rfl, rfl⟩
  chunk := by
    intro call hcall hpurpose
    rcases List.mem_append.mp hcall with hcall | hcall
    · exact hiv ▸ h.chunk call hcall hpurpose
    · rw [List.mem_singleton.mp hcall] at hpurpose
      cases hpurpose
  message := List.forall_mem_append.mpr
    ⟨h.message, List.forall_mem_singleton.mpr (fun hne => by cases hne)⟩

/-- A recipe batch was encrypted if the condition held, and only then is the file
longer. -/
theorem UploadLog.recipeCall_if (h : UploadLog p c n log) (i : Nat) {c' : Client}
    (hkey : c'.masterKey = c.masterKey) (hiv : c'.iv = c.iv) {cond : Prop} [Decidable cond]
    (hfile : if cond then c.recipeFile.length < c'.recipeFile.length
      else c'.recipeFile.length = c.recipeFile.length) :
    UploadLog p c' n (log ++ if cond then [Nonces.recipeCall i c] else []) := by
  by_cases hcond : cond
  · rw [if_pos hcond] at hfile ⊢
    exact h.recipeCall i hkey hiv hfile
  · rw [if_neg hcond] at hfile ⊢
    rw [List.append_nil]
    exact h.congr hkey hiv hfile

end Upload

/-- A restore message was encrypted and sent. -/
theorem RestoreLog.messageCall {sessionKey : Bytes} {s : Restore} {log : List Call}
    (h : RestoreLog sessionKey s log) (i : Nat) {s' : Restore}
    (hsent : s'.sent.length = s.sent.length + 1) :
    RestoreLog sessionKey s' (log ++ [Nonces.messageCall i sessionKey]) where
  sent := by rw [List.length_append, h.sent, hsent, List.length_singleton]
  message := List.forall_mem_append.mpr
    ⟨h.message, List.forall_mem_singleton.mpr ⟨rfl, rfl, rfl⟩⟩

/-- A restore message was encrypted and sent if the condition held. -/
theorem RestoreLog.messageCall_if {sessionKey : Bytes} {s : Restore} {log : List Call}
    (h : RestoreLog sessionKey s log) (i : Nat) {s' : Restore} {cond : Prop} [Decidable cond]
    (hsent : s'.sent.length = s.sent.length + if cond then 1 else 0) :
    RestoreLog sessionKey s' (log ++ if cond then [Nonces.messageCall i sessionKey] else []) := by
  by_cases hcond : cond
  · rw [if_pos hcond] at hsent ⊢
    exact h.messageCall i hsent
  · rw [if_neg hcond] at hsent ⊢
    rw [List.append_nil]
    exact ⟨h.sent.trans hsent.symm, h.message⟩

/-! ## What the functions do to keys, IV and recipe file -/

theorem storeUnique_keys (p : Params) (chunk : Bytes) (u : Upload) :
    (storeUnique p chunk u).2.client.masterKey = u.client.masterKey ∧
    (storeUnique p chunk u).2.client.iv = pickNewIV u.client.iv ∧
    (storeUnique p chunk u).2.client.recipeFile = u.client.recipeFile := by
  unfold storeUnique processUniqueChunk saveChunk
  dsimp only
  split <;> exact ⟨rfl, rfl, rfl⟩

/-- `flushRecipe` makes the file longer. -/
theorem flushRecipe_longer (p : Params) (c : Client) (hne : c.inRecipe ≠ []) :
    c.recipeFile.length < (flushRecipe p c).recipeFile.length := by
  have hpos : 0 < c.inRecipe.length := List.length_pos_of_ne_nil hne
  rw [flushRecipe, List.length_append, p.crypto.length_encryptWithKey, length_entriesToBytes]
  have hsize : 0 < c.inRecipe.length * recipeEntrySize := Nat.mul_pos hpos (by decide)
  omega

theorem recordChunk_keys (p : Params) (fp : Bytes) (size : Nat) (a : RecipeEntry) (u : Upload) :
    (recordChunk p fp size a u).client.masterKey = u.client.masterKey ∧
    (recordChunk p fp size a u).client.iv = u.client.iv := by
  unfold recordChunk updateFileRecipe flushRecipe
  dsimp only
  split <;> exact ⟨rfl, rfl⟩

theorem recordChunk_file (p : Params) (fp : Bytes) (size : Nat) (a : RecipeEntry) (u : Upload) :
    if fillsBatch p u.client
    then u.client.recipeFile.length < (recordChunk p fp size a u).client.recipeFile.length
    else (recordChunk p fp size a u).client.recipeFile.length = u.client.recipeFile.length := by
  have hfills : ((u.client.inRecipe ++ [a]).length % p.sendRecipeBatchSize = 0) ↔
      fillsBatch p u.client := by
    rw [List.length_append, List.length_singleton, fillsBatch]
  unfold recordChunk updateFileRecipe
  dsimp only
  simp only [hfills]
  split
  · exact flushRecipe_longer p { u.client with
      inRecipe := u.client.inRecipe ++ [a], history := u.client.history ++ [(fp, a)] } (by simp)
  · rfl

theorem processTailBatch_file (p : Params) (u : Upload) :
    if u.client.inRecipe ≠ []
    then u.client.recipeFile.length < (processTailBatch p u).client.recipeFile.length
    else (processTailBatch p u).client.recipeFile.length = u.client.recipeFile.length := by
  have hkeep : ∀ c : Client, (if c.inContainer ≠ [] then
      { c with curContainer := { c.curContainer with body := c.inContainer } }
      else c).recipeFile = c.recipeFile := by
    intro c
    split <;> rfl
  unfold processTailBatch
  dsimp only
  rw [hkeep]
  split
  · rename_i hne
    exact flushRecipe_longer p u.client hne
  · rfl

theorem processRecipeEnd_keys (p : Params) (head : FileRecipeHead) (u : Upload) :
    (processRecipeEnd p head u).client.masterKey = u.client.masterKey ∧
    (processRecipeEnd p head u).client.iv = u.client.iv := by
  unfold processRecipeEnd processTailBatch finalizeRecipe flushRecipe
  dsimp only
  split <;> split <;> exact ⟨rfl, rfl⟩

/-- `FinalizeRecipe` overwrites the head in place, so the file is as long as
`ProcessTailBatch` made it. -/
theorem processRecipeEnd_file (p : Params) (head : FileRecipeHead) (u : Upload)
    (hhead : fileRecipeHeadSize ≤ u.client.recipeFile.length) :
    if u.client.inRecipe ≠ []
    then u.client.recipeFile.length < (processRecipeEnd p head u).client.recipeFile.length
    else (processRecipeEnd p head u).client.recipeFile.length = u.client.recipeFile.length := by
  have htail := processTailBatch_file p u
  have hle : u.client.recipeFile.length ≤ (processTailBatch p u).client.recipeFile.length := by
    split at htail
    · exact htail.le
    · exact htail.ge
  have hlen : (processRecipeEnd p head u).client.recipeFile.length =
      (processTailBatch p u).client.recipeFile.length := by
    rw [processRecipeEnd, finalizeRecipe, List.length_append, FileRecipeHead.length_toBytes,
      List.length_drop]
    omega
  rw [hlen]
  exact htail

theorem processLastContainer_keys (p : Params) (u : Upload) :
    (processLastContainer p u).client.masterKey = u.client.masterKey ∧
    (processLastContainer p u).client.iv = u.client.iv ∧
    (processLastContainer p u).client.recipeFile = u.client.recipeFile := by
  unfold processLastContainer
  dsimp only
  split <;> exact ⟨rfl, rfl, rfl⟩

/-! ## One step -/

section Step

variable {p : Params} {ops : List (Op p)} {e : Enclave} {i : Nat}

theorem onUpload_eq {c : Client} (hi : e.sessions i = some (.upload c))
    (f : Upload → Upload × List Call) :
    e.onUpload i f =
      { disk := (f ⟨c, e.disk, e.stats⟩).1.disk
        stats := (f ⟨c, e.disk, e.stats⟩).1.stats
        sessions := Function.update e.sessions i
          (some (.upload (f ⟨c, e.disk, e.stats⟩).1.client))
        calls := e.calls ++ (f ⟨c, e.disk, e.stats⟩).2 } := by
  simp only [Enclave.onUpload, hi]

theorem onUpload_eq_self (hi : ∀ c, e.sessions i ≠ some (.upload c))
    (f : Upload → Upload × List Call) : e.onUpload i f = e := by
  unfold Enclave.onUpload
  split
  · rename_i c hc
    exact absurd hc (hi c)
  · rfl

theorem onRestore_eq {sessionKey : Bytes} {s : Restore}
    (hi : e.sessions i = some (.restore sessionKey s))
    (f : Bytes → Restore → Restore × List Call) :
    e.onRestore i f = { e with
      sessions := Function.update e.sessions i (some (.restore sessionKey (f sessionKey s).1))
      calls := e.calls ++ (f sessionKey s).2 } := by
  simp only [Enclave.onRestore, hi]

theorem onRestore_eq_self (hi : ∀ sessionKey s, e.sessions i ≠ some (.restore sessionKey s))
    (f : Bytes → Restore → Restore × List Call) : e.onRestore i f = e := by
  unfold Enclave.onRestore
  split
  · rename_i sessionKey s hs
    exact absurd hs (hi sessionKey s)
  · rfl

theorem chunksOf_append (i : Nat) (ops : List (Op p)) (op : Op p) :
    chunksOf i (ops ++ [op]) = chunksOf i ops + chunksOf i [op] :=
  List.countP_append

theorem SessionLog.mono {n m : Nat} {log : List Call} {o : Option Session}
    (h : SessionLog p n log o) (hle : n ≤ m) : SessionLog p m log o := by
  cases o with
  | none => exact h
  | some session =>
      cases session with
      | upload c => exact UploadLog.mono h hle
      | restore sessionKey s => exact h

/-- No operation lowers the count of chunks. -/
theorem UploadLog.more {c : Client} {log : List Call} (h : UploadLog p c (chunksOf i ops) log)
    (op : Op p) : UploadLog p c (chunksOf i (ops ++ [op])) log := by
  apply h.mono
  rw [chunksOf_append]
  exact Nat.le_add_right _ _

theorem Logged.more (h : Logged p ops e) (op : Op p) : Logged p (ops ++ [op]) e := by
  intro j
  apply (h j).mono
  rw [chunksOf_append]
  exact Nat.le_add_right _ _

/-- One session has moved on and has made the calls `new`; the other sessions see
nothing of it. -/
theorem Logged.update (h : Logged p ops e) (op : Op p) {disk : Disk} {stats : Stats}
    {session : Session} {new : List Call} (hnew : ∀ call ∈ new, call.session = i)
    (hlog : SessionLog p (chunksOf i (ops ++ [op])) (logOf i e.calls ++ new) (some session)) :
    Logged p (ops ++ [op]) ⟨disk, stats, Function.update e.sessions i (some session),
      e.calls ++ new⟩ := by
  intro j
  have happend : logOf j (e.calls ++ new) = logOf j e.calls ++ logOf j new :=
    List.filter_append _ _
  dsimp only
  rw [happend]
  by_cases hj : j = i
  · subst hj
    have hall : logOf j new = new := List.filter_eq_self.mpr (by simpa using hnew)
    rw [Function.update_self, hall]
    exact hlog
  · have hnone : logOf j new = [] := by
      apply List.filter_eq_nil_iff.mpr
      intro call hcall
      simpa [hnew call hcall] using fun heq => hj heq.symm
    rw [Function.update_of_ne hj, hnone, List.append_nil]
    exact h.more op j

/-- An upload session acts. -/
theorem Logged.onUpload (h : Logged p ops e) (op : Op p) {f : Upload → Upload × List Call}
    (hnew : ∀ u, ∀ call ∈ (f u).2, call.session = i)
    (hlog : ∀ u log, UploadLog p u.client (chunksOf i ops) log →
      UploadLog p (f u).1.client (chunksOf i (ops ++ [op])) (log ++ (f u).2)) :
    Logged p (ops ++ [op]) (e.onUpload i f) := by
  by_cases hi : ∃ c, e.sessions i = some (.upload c)
  · obtain ⟨c, hi⟩ := hi
    have hbefore := h i
    rw [hi] at hbefore
    rw [onUpload_eq hi]
    exact h.update op (hnew _) (hlog ⟨c, e.disk, e.stats⟩ _ hbefore)
  · rw [onUpload_eq_self (not_exists.mp hi)]
    exact h.more op

/-- A restore session acts. -/
theorem Logged.onRestore (h : Logged p ops e) (op : Op p)
    {f : Bytes → Restore → Restore × List Call}
    (hnew : ∀ sessionKey s, ∀ call ∈ (f sessionKey s).2, call.session = i)
    (hlog : ∀ sessionKey s log, RestoreLog sessionKey s log →
      RestoreLog sessionKey (f sessionKey s).1 (log ++ (f sessionKey s).2)) :
    Logged p (ops ++ [op]) (e.onRestore i f) := by
  by_cases hi : ∃ sessionKey s, e.sessions i = some (.restore sessionKey s)
  · obtain ⟨sessionKey, s, hi⟩ := hi
    have hbefore := h i
    rw [hi] at hbefore
    rw [onRestore_eq hi]
    exact h.update op (hnew _ _) (hlog sessionKey s _ hbefore)
  · rw [onRestore_eq_self (fun sessionKey s hs => hi ⟨sessionKey, s, hs⟩)]
    exact h.more op

/-- A new session has made no calls. -/
theorem Logged.enter (h : Logged p ops e) (op : Op p) (disk : Disk) {session : Session}
    (hlog : SessionLog p (chunksOf i (ops ++ [op])) [] (some session)) :
    Logged p (ops ++ [op]) (e.enter i disk session) := by
  unfold Enclave.enter
  cases hi : e.sessions i with
  | some _ => exact h.more op
  | none =>
      have hempty : logOf i e.calls = [] := by
        have hbefore := h i
        rw [hi] at hbefore
        exact hbefore
      intro j
      by_cases hj : j = i
      · subst hj
        dsimp only
        rw [Function.update_self, hempty]
        exact hlog
      · dsimp only
        rw [Function.update_of_ne hj]
        exact h.more op j

/-- The message is sent exactly when the code's test before it holds. -/
theorem recoverAndSend_eq (i : Nat) (chunkBuffer : Bytes) (chunkSize : Nat) (endFlag : Bool)
    (sessionKey : Bytes) (s : Restore) :
    (recoverAndSend p i chunkBuffer chunkSize endFlag sessionKey s).2 =
      (if sendsNext p s endFlag then [messageCall i sessionKey] else []) ∧
    (recoverAndSend p i chunkBuffer chunkSize endFlag sessionKey s).1.sent.length =
      s.sent.length + (if sendsNext p s endFlag then 1 else 0) := by
  have htest : ((recoverOneChunk p chunkBuffer chunkSize s.restoreChunkBuf).currentItemNum %
      p.sendChunkBatchSize = 0 ∨ endFlag = true) ↔ sendsNext p s endFlag := Iff.rfl
  unfold recoverAndSend
  dsimp only
  simp only [htest]
  split <;> simp [Restore.send]

/-- The call that is made if a condition holds. -/
theorem session_of_if {made call : Call} {cond : Prop} [Decidable cond]
    (hmade : made.session = i) (hcall : call ∈ if cond then [made] else []) :
    call.session = i := by
  split at hcall
  · rw [List.mem_singleton.mp hcall]
    exact hmade
  · cases hcall

/-- **One step** keeps every session's calls as they should be. -/
theorem Logged.step (h : Logged p ops e) (op : Op p) :
    Logged p (ops ++ [op]) (e.step p op) := by
  cases op with
  | loginUpload i session =>
      refine h.enter _ _ (UploadLog.mk ?_ ?_ (by simp) (by simp) (by simp))
      · simp [login]
      · simp [login, HasBatch]
  | loginRestore i sessionKey =>
      exact h.enter _ _ (RestoreLog.mk (by simp [Restore.init]) (by simp))
  | storeUnique i chunk =>
      apply h.onUpload
      · simp [storeAct, chunkCall]
      · intro u log hlog
        obtain ⟨hkey, hiv, hfile⟩ := storeUnique_keys p chunk u
        have hcount : chunksOf i (ops ++ [.storeUnique i chunk]) = chunksOf i ops + 1 := by
          rw [chunksOf_append]
          simp [chunksOf]
        rw [hcount]
        exact hlog.chunkCall i hkey hiv hfile
  | recordChunk i fp chunkSize chunkAddr =>
      apply h.onUpload
      · exact fun u call hcall => session_of_if rfl hcall
      · intro u log hlog
        obtain ⟨hkey, hiv⟩ := recordChunk_keys p fp chunkSize chunkAddr u
        exact (hlog.more _).recipeCall_if i hkey hiv
          (recordChunk_file p fp chunkSize chunkAddr u)
  | processRecipeEnd i recipeHead =>
      apply h.onUpload
      · exact fun u call hcall => session_of_if rfl hcall
      · intro u log hlog
        obtain ⟨hkey, hiv⟩ := processRecipeEnd_keys p recipeHead u
        exact (hlog.more _).recipeCall_if i hkey hiv
          (processRecipeEnd_file p recipeHead u hlog.head)
  | processLastContainer i =>
      apply h.onUpload
      · simp [lastContainerAct]
      · intro u log hlog
        obtain ⟨hkey, hiv, hfile⟩ := processLastContainer_keys p u
        rw [lastContainerAct, List.append_nil]
        exact (hlog.more _).congr hkey hiv (by rw [hfile])
  | recover i chunkBuffer chunkSize endFlag =>
      apply h.onRestore
      · intro sessionKey s call hcall
        rw [(recoverAndSend_eq i chunkBuffer chunkSize endFlag sessionKey s).1] at hcall
        exact session_of_if rfl hcall
      · intro sessionKey s log hlog
        obtain ⟨hcalls, hsent⟩ :=
          recoverAndSend_eq (p := p) i chunkBuffer chunkSize endFlag sessionKey s
        rw [hcalls]
        exact hlog.messageCall_if i hsent
  | sendFinal i =>
      apply h.onRestore
      · simp [messageCall]
      · intro sessionKey s log hlog
        exact hlog.messageCall i (by simp [Restore.send])

end Step

theorem logged_init (p : Params) : Logged p [] .init := by
  intro i
  exact rfl

theorem run_append (p : Params) (ops : List (Op p)) (op : Op p) :
    run p (ops ++ [op]) = (run p ops).step p op := by
  rw [run, List.foldl_append]
  rfl

theorem logged_run (p : Params) (ops : List (Op p)) : Logged p ops (run p ops) := by
  induction ops using List.reverseRecOn with
  | nil => exact logged_init p
  | append_singleton ops op ih =>
      rw [run_append]
      exact ih.step op

/-! ## When an IV is used again -/

theorem noReuse_append (calls : List Call) (call : Call) :
    NoReuse (calls ++ [call]) ↔
      NoReuse calls ∧ ∀ a ∈ calls, a.Related call → a.iv ≠ call.iv := by
  simp [NoReuse, List.pairwise_append]

theorem noReuse_append_if (calls : List Call) (call : Call) (cond : Prop) [Decidable cond] :
    NoReuse (calls ++ if cond then [call] else []) ↔
      NoReuse calls ∧ (cond → ∀ a ∈ calls, a.Related call → a.iv ≠ call.iv) := by
  by_cases hcond : cond
  · simp only [hcond, if_true, true_imp_iff, noReuse_append]
  · simp only [hcond, if_false, false_imp_iff, and_true, List.append_nil]

section Reuse

variable {p : Params} {ops : List (Op p)} {e : Enclave} {i : Nat}

/-- A call in the list comes from a session whose log it is in. -/
theorem Logged.of_mem (h : Logged p ops e) {call : Call} (hcall : call ∈ e.calls) :
    ∃ session, e.sessions call.session = some session ∧
      SessionLog p (chunksOf call.session ops) (logOf call.session e.calls) (some session) := by
  have hlog := h call.session
  have hmem : call ∈ logOf call.session e.calls := mem_logOf.mpr ⟨hcall, rfl⟩
  cases hi : e.sessions call.session with
  | none =>
      rw [hi] at hlog
      rw [show logOf call.session e.calls = [] from hlog] at hmem
      cases hmem
  | some session =>
      rw [hi] at hlog
      exact ⟨session, rfl, hlog⟩

/-- `PickNewIV` gives an IV that the session has not used. -/
theorem Logged.chunk_fresh (h : Logged p ops e) {c : Client}
    (hi : e.sessions i = some (.upload c)) (hfew : chunksOf i ops + 1 < 2 ^ 64) :
    ∀ a ∈ e.calls, a.Related (chunkCall p i c) → a.iv ≠ (chunkCall p i c).iv := by
  intro a ha hrelated hiv
  have hpurpose : a.purpose = .chunk := hrelated.1
  have hsession : a.session = i := hrelated.session nofun
  have hlog := h i
  rw [hi] at hlog
  obtain ⟨m, hm, hbefore⟩ := UploadLog.chunk hlog a (mem_logOf.mpr ⟨ha, hsession⟩) hpurpose
  rw [hbefore] at hiv
  exact ivBefore_ne m c.iv (by omega) (toBytes_injective hiv)

/-- The IV of a recipe batch is new exactly when the batch is the client's first. -/
theorem Logged.recipe_fresh_iff (h : Logged p ops e) {c : Client} :
    (∀ a ∈ e.calls, a.Related (recipeCall i c) → a.iv ≠ (recipeCall i c).iv) ↔
      NoBatchYet e c.masterKey := by
  constructor
  · intro hfresh j c' hj hkey hbatch
    have hlog := h j
    rw [hj] at hlog
    obtain ⟨a, ha, hpurpose⟩ := (UploadLog.batch hlog).mpr hbatch
    obtain ⟨hmaster, hiv⟩ := UploadLog.recipe hlog a ha hpurpose
    exact hfresh a (mem_logOf.mp ha).1 ⟨hpurpose, hmaster.trans hkey, .inl hpurpose⟩ hiv
  · rintro hnone a ha ⟨hpurpose, hkey, -⟩ -
    have hmem : a ∈ logOf a.session e.calls := mem_logOf.mpr ⟨ha, rfl⟩
    obtain ⟨session, hs, hlog⟩ := h.of_mem ha
    cases session with
    | upload c' =>
        have hmaster := (UploadLog.recipe hlog a hmem hpurpose).1
        exact hnone a.session c' hs (hmaster.symm.trans hkey)
          ((UploadLog.batch hlog).mp ⟨a, hmem, hpurpose⟩)
    | restore sessionKey s =>
        have hmessage := (RestoreLog.message hlog a hmem).1
        rw [hpurpose] at hmessage
        cases hmessage

/-- The IV of a restore message is new exactly when the message is the session's
first. -/
theorem Logged.message_fresh_iff (h : Logged p ops e) {sessionKey : Bytes} {s : Restore}
    (hi : e.sessions i = some (.restore sessionKey s)) :
    (∀ a ∈ e.calls, a.Related (messageCall i sessionKey) →
      a.iv ≠ (messageCall i sessionKey).iv) ↔ s.sent = [] := by
  have hlog := h i
  rw [hi] at hlog
  constructor
  · intro hfresh
    by_contra hsent
    have hpos : 0 < (logOf i e.calls).length := by
      rw [RestoreLog.sent hlog]
      exact List.length_pos_of_ne_nil hsent
    obtain ⟨a, ha⟩ := List.exists_mem_of_length_pos hpos
    obtain ⟨hpurpose, hkey, hiv⟩ := RestoreLog.message hlog a ha
    exact hfresh a (mem_logOf.mp ha).1 ⟨hpurpose, hkey, .inr (mem_logOf.mp ha).2⟩ hiv
  · intro hsent a ha hrelated _
    have hsession : a.session = i := hrelated.session nofun
    have hpos := List.length_pos_of_mem (mem_logOf.mpr ⟨ha, hsession⟩)
    rw [RestoreLog.sent hlog, hsent] at hpos
    exact absurd hpos (Nat.lt_irrefl 0)

/-- An upload session acts: `Q` says when its calls clash with no earlier one. -/
theorem noReuse_onUpload {f : Upload → Upload × List Call} {Q : Client → Prop}
    (hcalls : ∀ c, e.sessions i = some (.upload c) →
      (NoReuse (e.calls ++ (f ⟨c, e.disk, e.stats⟩).2) ↔ NoReuse e.calls ∧ Q c)) :
    NoReuse (e.onUpload i f).calls ↔
      NoReuse e.calls ∧ ∀ c, e.sessions i = some (.upload c) → Q c := by
  by_cases hi : ∃ c, e.sessions i = some (.upload c)
  · obtain ⟨c, hi⟩ := hi
    rw [onUpload_eq hi, hi]
    simpa using hcalls c hi
  · rw [onUpload_eq_self (not_exists.mp hi)]
    exact (and_iff_left fun c hc => absurd ⟨c, hc⟩ hi).symm

/-- A restore session acts. -/
theorem noReuse_onRestore {f : Bytes → Restore → Restore × List Call}
    {Q : Bytes → Restore → Prop}
    (hcalls : ∀ sessionKey s, e.sessions i = some (.restore sessionKey s) →
      (NoReuse (e.calls ++ (f sessionKey s).2) ↔ NoReuse e.calls ∧ Q sessionKey s)) :
    NoReuse (e.onRestore i f).calls ↔ NoReuse e.calls ∧
      ∀ sessionKey s, e.sessions i = some (.restore sessionKey s) → Q sessionKey s := by
  by_cases hi : ∃ sessionKey s, e.sessions i = some (.restore sessionKey s)
  · obtain ⟨sessionKey, s, hi⟩ := hi
    rw [onRestore_eq hi, hi]
    simpa using hcalls sessionKey s hi
  · rw [onRestore_eq_self fun sessionKey s hs => hi ⟨sessionKey, s, hs⟩]
    exact (and_iff_left fun sessionKey s hs => absurd ⟨sessionKey, s, hs⟩ hi).symm

/-- **One step** leaves the IVs unused exactly when it is the first of its kind. -/
theorem Logged.noReuse_step_iff (h : Logged p ops e) (op : Op p)
    (hfew : ∀ i, chunksOf i (ops ++ [op]) < 2 ^ 64) :
    NoReuse (e.step p op).calls ↔ NoReuse e.calls ∧ First p e op := by
  have henter : ∀ i disk session, (e.enter i disk session).calls = e.calls := by
    intro i disk session
    unfold Enclave.enter
    split <;> rfl
  cases op with
  | loginUpload i session =>
      simp only [Enclave.step, henter, First, and_true]
  | loginRestore i sessionKey =>
      simp only [Enclave.step, henter, First, and_true]
  | storeUnique i chunk =>
      have hcount : chunksOf i ops + 1 < 2 ^ 64 := by
        have hlt := hfew i
        rw [chunksOf_append] at hlt
        simpa [chunksOf] using hlt
      refine (noReuse_onUpload (Q := fun _ => True) fun c hi => ?_).trans (by simp [First])
      rw [storeAct, noReuse_append]
      exact and_congr_right fun _ => iff_true_intro (h.chunk_fresh hi hcount)
  | recordChunk i fp chunkSize chunkAddr =>
      refine noReuse_onUpload fun c _ => ?_
      rw [recordAct, noReuse_append_if, h.recipe_fresh_iff]
  | processRecipeEnd i recipeHead =>
      refine noReuse_onUpload fun c _ => ?_
      rw [recipeEndAct, noReuse_append_if, h.recipe_fresh_iff]
  | processLastContainer i =>
      refine (noReuse_onUpload (Q := fun _ => True) fun c _ => ?_).trans (by simp [First])
      rw [lastContainerAct, List.append_nil, and_true]
  | recover i chunkBuffer chunkSize endFlag =>
      refine noReuse_onRestore fun sessionKey s hi => ?_
      rw [(recoverAndSend_eq i chunkBuffer chunkSize endFlag sessionKey s).1, noReuse_append_if,
        h.message_fresh_iff hi]
  | sendFinal i =>
      refine noReuse_onRestore fun sessionKey s hi => ?_
      rw [noReuse_append, h.message_fresh_iff hi]

end Reuse

/-- A client of the small configuration, which encrypts two addresses at a time,
uploads a file of `n` addresses. -/
def uploadOps (n : Nat) : List (Op smallParams) :=
  .loginUpload 0 (smallSession (some ⟨0, 0⟩)) ::
    List.replicate n (.recordChunk 0 [] 0 (.ofBytes [])) ++ [.processRecipeEnd 0 ⟨0, 0⟩]

/-- A client restores a file of `n` chunks, which leave two at a time. -/
def restoreOps (n : Nat) : List (Op smallParams) :=
  .loginRestore 0 [3] :: List.replicate n (.recover 0 [] 0 false) ++ [.recover 0 [] 0 true]

example : ¬ NoReuse (run smallParams (restoreOps 2)).calls := by decide

/-! ## The uploads of the frequency index -/

/-- Every upload session of the system is one of the machine, in the same state. -/
def Shows {p : Params} (sys : System p) (e : Enclave) : Prop :=
  e.disk = sys.disk ∧ e.stats = sys.stats ∧
    ∀ i, e.sessions i = (sys.slots i).map fun slot => .upload slot.client

/-- Session `i` of the machine is in the upload state `u`. -/
def At (e : Enclave) (i : Nat) (u : Upload) : Prop :=
  e.sessions i = some (.upload u.client) ∧ e.disk = u.disk ∧ e.stats = u.stats

theorem At.onUpload {e : Enclave} {i : Nat} {u : Upload} (h : At e i u)
    (f : Upload → Upload × List Call) :
    At (e.onUpload i f) i (f u).1 ∧ (e.onUpload i f).sessions =
      Function.update e.sessions i (some (.upload (f u).1.client)) := by
  obtain ⟨hi, hdisk, hstats⟩ := h
  have hu : (⟨u.client, e.disk, e.stats⟩ : Upload) = u := by rw [hdisk, hstats]
  rw [onUpload_eq hi, hu]
  exact ⟨⟨Function.update_self _ _ _, rfl, rfl⟩, rfl⟩

/-- What a section does to a session's upload is done by operations of the machine. -/
theorem effect_ops {p : Params} {good : Bytes → RecipeEntry → Prop}
    {recipeEnd : Option FileRecipeHead} {ph ph' : Phase} {u u' : Upload}
    (h : Effect p good recipeEnd ph u ph' u') {e : Enclave} {i : Nat} (hat : At e i u) :
    ∃ ops : List (Op p), At (ops.foldl (Enclave.step p) e) i u' ∧
      (ops.foldl (Enclave.step p) e).sessions =
        Function.update e.sessions i (some (.upload u'.client)) := by
  cases h with
  | quiet =>
      refine ⟨[], hat, ?_⟩
      rw [← hat.1, Function.update_eq_self]
      rfl
  | @reuse fp a size _ hgood =>
      exact ⟨[.recordChunk i fp size a], hat.onUpload (recordAct p i fp size a)⟩
  | @store chunk size _ hchunk =>
      refine ⟨[.storeUnique i chunk, .recordChunk i (p.crypto.generateHash chunk) size
        (storeUnique p chunk u).1], ?_⟩
      obtain ⟨hstored, hfirst⟩ := hat.onUpload (storeAct p i chunk)
      obtain ⟨hrecorded, hsecond⟩ := hstored.onUpload
        (recordAct p i (p.crypto.generateHash chunk) size (storeUnique p chunk u).1)
      refine ⟨hrecorded, hsecond.trans ?_⟩
      rw [hfirst, Function.update_idem]
      rfl
  | @tail head _ _ => exact ⟨[.processRecipeEnd i head], hat.onUpload (recipeEndAct p i head)⟩
  | flush => exact ⟨[.processLastContainer i], hat.onUpload (lastContainerAct p)⟩
  | abort => exact ⟨[.processLastContainer i], hat.onUpload (lastContainerAct p)⟩

/-- One session of the system and the same session of the machine have moved on. -/
theorem Shows.update {p : Params} {sys sys' : System p} {e e' : Enclave} (h : Shows sys e)
    {i : Nat} {slot : Slot p} (hslots : sys'.slots = Function.update sys.slots i (some slot))
    (hdisk : e'.disk = sys'.disk) (hstats : e'.stats = sys'.stats)
    (hsessions : e'.sessions = Function.update e.sessions i (some (.upload slot.client))) :
    Shows sys' e' := by
  refine ⟨hdisk, hstats, fun j => ?_⟩
  rw [hsessions, hslots]
  by_cases hj : j = i
  · subst hj
    rw [Function.update_self, Function.update_self, Option.map_some]
  · rw [Function.update_of_ne hj, Function.update_of_ne hj]
    exact h.2.2 j

/-- A step of the system is a sequence of operations of the machine. -/
theorem Shows.step {p : Params} {sys sys' : System p} {e : Enclave} (h : Shows sys e)
    (hsafe : SystemSafe p sys) {a : Action p} (hstep : System.step p sys a = .ok sys') :
    ∃ ops : List (Op p), Shows sys' (ops.foldl (Enclave.step p) e) := by
  have hdisk := h.1
  have hstats := h.2.1
  cases a with
  | login i session =>
      cases hi : sys.slots i with
      | some slot =>
          simp only [System.step, hi, Except.ok.injEq] at hstep
          exact ⟨[], hstep ▸ h⟩
      | none =>
          simp only [System.step, hi, Except.ok.injEq] at hstep
          have hfree : e.sessions i = none := by rw [h.2.2, hi, Option.map_none]
          refine ⟨[.loginUpload i session], ?_⟩
          simp only [List.foldl_cons, List.foldl_nil, Enclave.step, Enclave.enter, hfree]
          rw [← hstep]
          refine h.update rfl ?_ hstats ?_
          · simp only [System.put, login, hdisk]
          · simp only [login, hdisk]
  | advance i =>
      cases hi : sys.slots i with
      | none =>
          simp only [System.step, hi, Except.ok.injEq] at hstep
          exact ⟨[], hstep ▸ h⟩
      | some slot =>
          simp only [System.step, hi] at hstep
          obtain ⟨sys₁, hrun, hmoved⟩ := advanceSlot_moved hsafe hi
          have hsame : sys₁ = sys' := Except.ok.inj (hrun.symm.trans hstep)
          subst hsame
          obtain ⟨slot', hslots, _, heffect⟩ := hmoved.moved
          have hat : At e i (sys.upload slot.client) := by
            refine ⟨?_, hdisk, hstats⟩
            rw [h.2.2, hi, Option.map_some]
            rfl
          obtain ⟨ops, ⟨_, hdisk', hstats'⟩, hsessions'⟩ := effect_ops heffect hat
          exact ⟨ops, h.update hslots hdisk' hstats' hsessions'⟩

/-- **The uploads are runs of the machine.**  Whatever the sessions of the frequency
index do, in any interleaving, operations of the machine do to the same clients. -/
theorem uploads_shown (p : Params) (actions : List (Action p)) :
    ∃ sys ops, System.run p (System.init p) actions = .ok sys ∧ Shows sys (run p ops) := by
  obtain ⟨sys, hrun, _, ops, hshows⟩ := Loops.foldlM_ok (f := System.step p) (l := actions)
    (P := fun _ sys => SystemSafe p sys ∧ ∃ ops, Shows sys (run p ops))
    ⟨systemSafe_init p, [], rfl, rfl, fun _ => rfl⟩ (by
      rintro _ a _ sys _ ⟨hsafe, ops, hshows⟩
      obtain ⟨sys', hstep, hsafe', _⟩ := step_cases hsafe a
      obtain ⟨more, hmore⟩ := hshows.step hsafe hstep
      refine ⟨sys', hstep, hsafe', ops ++ more, ?_⟩
      rw [run, List.foldl_append]
      exact hmore)
  exact ⟨sys, ops, hrun, hshows⟩

/-! ## The restore loops -/

/-- Operations of the machine lead a restore session to the messages and the buffer of
`s`.  What the decoder collects in between is not encrypted and not followed. -/
def Follows (p : Params) (e : Enclave) (i : Nat) (sessionKey : Bytes) (s : Restore) : Prop :=
  ∃ (ops : List (Op p)) (r : Restore),
    (ops.foldl (Enclave.step p) e).sessions i = some (.restore sessionKey r) ∧
    r.sent = s.sent ∧ r.restoreChunkBuf = s.restoreChunkBuf

section Restore

variable {p : Params} {e : Enclave} {i : Nat} {sessionKey : Bytes}

theorem Follows.congr {s s' : Restore} (h : Follows p e i sessionKey s)
    (hsent : s'.sent = s.sent) (hbuf : s'.restoreChunkBuf = s.restoreChunkBuf) :
    Follows p e i sessionKey s' := by
  unfold Follows
  rw [hsent, hbuf]
  exact h

/-- One more operation of the session. -/
theorem Follows.onRestore {s s' : Restore} (h : Follows p e i sessionKey s) (op : Op p)
    (f : Bytes → Restore → Restore × List Call) (hop : ∀ e : Enclave, e.step p op = e.onRestore i f)
    (hf : ∀ r : Restore, r.sent = s.sent → r.restoreChunkBuf = s.restoreChunkBuf →
      (f sessionKey r).1.sent = s'.sent ∧
      (f sessionKey r).1.restoreChunkBuf = s'.restoreChunkBuf) :
    Follows p e i sessionKey s' := by
  obtain ⟨ops, r, hi, hsent, hbuf⟩ := h
  refine ⟨ops ++ [op], (f sessionKey r).1, ?_, hf r hsent hbuf⟩
  rw [List.foldl_append, List.foldl_cons, List.foldl_nil, hop, onRestore_eq hi]
  exact Function.update_self _ _ _

/-- A collected entry is recovered by a turn of the loops, with the message that the
code's test asks for. -/
theorem Follows.recover {s s₁ : Restore} (h : Follows p e i sessionKey s)
    {containerArray : List Bytes} {b : EnclaveRecipeEntry}
    (hrun : recoverEntry (enclaveCodec p sessionKey) containerArray s b = .ok s₁)
    (endFlag : Bool) :
    Follows p e i sessionKey
      (if s₁.restoreChunkBuf.currentItemNum % p.sendChunkBatchSize = 0 ∨ endFlag = true then
        s₁.send (enclaveCodec p sessionKey)
          (if endFlag = true then .serverRestoreFinal else .serverRestoreChunk)
      else s₁) := by
  unfold recoverEntry inRange at hrun
  cases hc : containerArray[b.containerID]? with
  | none =>
      rw [hc] at hrun
      cases hrun
  | some container =>
      rw [hc] at hrun
      cases hrun
      apply h.onRestore (.recover i (container.drop b.offset.toNat) b.length.toNat endFlag)
        (recoverAndSend p i (container.drop b.offset.toNat) b.length.toNat endFlag)
        (fun _ => rfl)
      intro r hsent hbuf
      simp only [recoverAndSend, hbuf, enclaveCodec]
      split <;> rename_i htest <;> simp [htest, Restore.send, hsent]

theorem Follows.drainStep {s s' : Restore} (h : Follows p e i sessionKey s)
    {containerArray : List Bytes} {b : EnclaveRecipeEntry}
    (hrun : Debe.drainStep (enclaveCodec p sessionKey) p.sendChunkBatchSize containerArray s b =
      .ok s') : Follows p e i sessionKey s' := by
  obtain ⟨s₁, hrec, hout⟩ := Loops.bind_eq_ok.mp hrun
  cases hout
  simpa using h.recover hrec false

theorem Follows.tailStep {s : Restore} {k : Nat} {st : Restore × Nat}
    (h : Follows p e i sessionKey s) {containerArray : List Bytes} {b : EnclaveRecipeEntry}
    (hrun : Debe.tailStep (enclaveCodec p sessionKey) p.sendChunkBatchSize containerArray (s, k) b =
      .ok st) : Follows p e i sessionKey st.1 := by
  obtain ⟨s₁, hrec, hout⟩ := Loops.bind_eq_ok.mp hrun
  cases hout
  simpa using h.recover hrec (decide (k - 1 = 0))

/-- Collecting an entry touches neither the buffer nor the messages. -/
theorem addEntry_stream (s : Restore) (slots : SlotMap) (entry : RecipeEntry) :
    (addEntry s slots entry).1.sent = s.sent ∧
    (addEntry s slots entry).1.restoreChunkBuf = s.restoreChunkBuf := by
  unfold addEntry
  split <;> exact ⟨rfl, rfl⟩

theorem Follows.batchStep {st st' : Restore × SlotMap} (h : Follows p e i sessionKey st.1)
    {fetch : ContainerID → Bytes} {entry : RecipeEntry}
    (hrun : Debe.batchStep (enclaveCodec p sessionKey) p.sendChunkBatchSize fetch st entry =
      .ok st') : Follows p e i sessionKey st'.1 := by
  obtain ⟨hsent, hbuf⟩ := addEntry_stream st.1 st.2 entry
  have hadd := h.congr hsent hbuf
  unfold Debe.batchStep at hrun
  dsimp only at hrun
  split at hrun
  · obtain ⟨s₁, hdrain, hout⟩ := Loops.bind_eq_ok.mp hrun
    cases hout
    have hkeeps := Loops.foldlM_keeps (P := Follows p e i sessionKey) hadd
      (fun _ _ _ hs hb => hs.drainStep hb) hdrain
    exact hkeeps.congr rfl rfl
  · cases hrun
    exact hadd

/-- **The restore loops are runs of the machine.**  A restore that starts in a session
of the machine sends what operations of the machine send, message by message. -/
theorem restore_followed {masterKey : Bytes} {fetch : ContainerID → Bytes} {reads : List Bytes}
    {s : Restore} (hi : e.sessions i = some (.restore sessionKey .init))
    (hrun : restoreRun p fetch sessionKey masterKey reads = .ok s) :
    Follows p e i sessionKey s := by
  obtain ⟨s₁, hreads, htail⟩ := Loops.bind_eq_ok.mp hrun
  have hstart : Follows p e i sessionKey .init := ⟨[], .init, hi, rfl, rfl⟩
  have hbatches : Follows p e i sessionKey s₁ := by
    refine Loops.foldlM_keeps hstart ?_ hreads
    intro s recipeBuffer s' hs hbatch
    obtain ⟨st, hloop, hout⟩ := Loops.bind_eq_ok.mp hbatch
    cases hout
    exact Loops.foldlM_keeps (P := fun st => Follows p e i sessionKey st.1) hs
      (fun _ _ _ hst hstep => hst.batchStep hstep) hloop
  unfold procRecipeTailBatch at htail
  split at htail
  · obtain ⟨st, hloop, hout⟩ := Loops.bind_eq_ok.mp htail
    cases hout
    exact Loops.foldlM_keeps (P := fun st => Follows p e i sessionKey st.1) hbatches
      (fun _ _ _ hst hstep => hst.tailStep hstep) hloop
  · cases htail
    apply hbatches.onRestore (.sendFinal i) _ (fun _ => rfl)
    intro r hsent hbuf
    simp [Restore.send, hsent, hbuf]

end Restore

end Debe.Nonces
