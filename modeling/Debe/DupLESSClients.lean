import Debe.BaselineSystem
import Debe.KeyRuns

/-!
# Clients that share chunks

Clients of one DupLESS key manager upload their files one after another.  They blind with numbers
of their own and send batches of their own sizes.  Their ciphertexts depend on the chunks alone, so
the server stores once what their files have in common.
-/

namespace Debe

open Records FrameBuffer Firsts

variable {crypto : Crypto} {key : RSAKeyPair}

/-- A client of the key manager with a key pair, and the file that it uploads: none of the chunks
is empty, their batches can be counted, and the numbers that are drawn for them have inverses. -/
structure DupLESSClient (crypto : Crypto) (key : RSAKeyPair) where
  params : BaselineParams
  heap : Nat → UInt8
  chunks : List Chunk
  recipeHead : FileRecipeHead
  crypto_eq : params.crypto = crypto
  publicKey_eq : params.publicKey = key.toRSAPublicKey
  keyManager_eq : params.keyManager = duplessKeyManager key
  batch_lt : params.sendChunkBatchSize * rsaKeySize < 2 ^ 32
  batchesFit : BatchesFit params.sendChunkBatchSize (chunks.map (·.val))
  nonempty : ∀ c ∈ chunks, c.val ≠ []
  inverses : ∀ i < chunks.length, Nat.gcd (params.rand i) key.clientKeyN = 1

/-- The upload of a client. -/
def DupLESSClient.upload (client : DupLESSClient crypto key) : Except Fault BaselineSender :=
  baselineSenderRun client.params .dupless client.heap
    (uploadItems client.chunks client.recipeHead)

/-- The server receives the upload of a client in this session. -/
def DupLESSClient.Reaches (client : DupLESSClient crypto key) (session : PlainSession) : Prop :=
  ∃ sender, client.upload = .ok sender ∧ session.msgs.map Prod.fst = sender.sent

/-- A chunk under the hash of its signed hash. -/
def duplessCiphertext (crypto : Crypto) (key : RSAKeyPair) (chunk : Bytes) : Bytes :=
  crypto.encryptWithKey
    (crypto.generateHash (signature key (crypto.generateHash chunk))) chunk

/-! ## A client -/

theorem DupLESSClient.run (client : DupLESSClient crypto key) :
    ∃ s groups, client.upload = .ok s ∧
      UploadDone client.params .dupless (2 ^ 32 - 1) (client.chunks.map (·.val)) groups s ∧
      groups.flatten = keyedBy (duplessChunkKey client.params key)
        (length_duplessChunkKey client.params key) (client.chunks.map (·.val)) :=
  dupless_run client.params key client.publicKey_eq client.keyManager_eq client.batch_lt
    client.heap client.chunks client.recipeHead client.batchesFit client.inverses

/-- **The session of a client** is orderly and brings the ciphertexts of its chunks. -/
theorem DupLESSClient.Reaches.session {client : DupLESSClient crypto key}
    {session : PlainSession} (h : client.Reaches session) :
    session.Orderly ∧
      session.chunks = (client.chunks.map (·.val)).map (duplessCiphertext crypto key) ∧
      ∀ c ∈ session.chunks, Sized c := by
  obtain ⟨sender, hsend, hmsgs⟩ := h
  obtain ⟨s, groups, hrun, hdone, hkeyed⟩ := client.run
  obtain rfl : sender = s := Except.ok.inj (hsend.symm.trans hrun)
  obtain ⟨horderly, -⟩ := session_of_upload hmsgs (baselineSenderRun_sent hsend)
  refine ⟨horderly, ?_, hdone.sized_session hmsgs client.nonempty⟩
  rw [hdone.session_chunks hmsgs, hkeyed, ciphertexts, keyedBy, List.map_map]
  refine List.map_congr_left fun c _ => ?_
  change client.params.crypto.encryptWithKey (duplessChunkKey client.params key c) c = _
  rw [duplessChunkKey, client.crypto_eq, duplessCiphertext]

/-! ## All clients -/

/-- The chunks of the files, in the order of the uploads. -/
def clientChunks (clients : List (DupLESSClient crypto key)) : List Bytes :=
  clients.flatMap fun client => client.chunks.map (·.val)

theorem clientChunks_cons (client : DupLESSClient crypto key)
    (clients : List (DupLESSClient crypto key)) :
    clientChunks (client :: clients) = client.chunks.map (·.val) ++ clientChunks clients := rfl

variable {clients : List (DupLESSClient crypto key)} {sessions : List PlainSession}

/-- What the server receives are the ciphertexts of all chunks. -/
theorem receivedChunks_clients (h : List.Forall₂ DupLESSClient.Reaches clients sessions) :
    receivedChunks sessions = (clientChunks clients).map (duplessCiphertext crypto key) := by
  induction h with
  | nil => rfl
  | cons hclient _ ih =>
      rw [clientChunks_cons, List.map_append, ← hclient.session.2.1, ← ih]
      rfl

theorem orderly_clients (h : List.Forall₂ DupLESSClient.Reaches clients sessions) :
    ∀ session ∈ sessions, session.Orderly := by
  induction h with
  | nil => simp
  | cons hclient _ ih => exact List.forall_mem_cons.mpr ⟨hclient.session.1, ih⟩

theorem sized_clients (h : List.Forall₂ DupLESSClient.Reaches clients sessions) :
    ∀ c ∈ receivedChunks sessions, Sized c := by
  induction h with
  | nil => simp [receivedChunks]
  | cons hclient _ ih => exact List.forall_mem_append.mpr ⟨hclient.session.2.2, ih⟩

/-- No two chunks of the files have ciphertexts with one fingerprint. -/
def CiphertextsApart (p : Params) (clients : List (DupLESSClient crypto key)) : Prop :=
  ∀ a ∈ clientChunks clients, ∀ b ∈ clientChunks clients,
    p.crypto.generateHash (duplessCiphertext crypto key a) =
      p.crypto.generateHash (duplessCiphertext crypto key b) → a = b

/-- The ciphertexts that are kept are those of the first copies of the chunks. -/
theorem CiphertextsApart.firsts {p : Params} (h : CiphertextsApart p clients) :
    firsts p.crypto.generateHash ((clientChunks clients).map (duplessCiphertext crypto key)) =
      (firsts id (clientChunks clients)).map (duplessCiphertext crypto key) := by
  rw [firsts_map]
  refine congrArg _ (firsts_congr fun a ha b hb => ⟨h a ha b hb, fun hab => ?_⟩)
  exact congrArg _ hab

/-- **Clients of DupLESS deduplicate against each other.**  Whatever they blind with and whatever
their batch sizes are: all uploads run through, and so does the server that receives them one after
another.  It counts not more unique chunks than there are different chunks in all files together;
and unless two of them get ciphertexts with one fingerprint, it counts as many, and its
containers hold one ciphertext for each, in the order in which the chunks first came. -/
theorem dupless_clients_deduplicate (p : Params) (clients : List (DupLESSClient crypto key)) :
    (∀ client ∈ clients, ∃ sender, client.upload = .ok sender) ∧
      ∀ sessions, List.Forall₂ DupLESSClient.Reaches clients sessions →
        ∃ srv, runPlainSessions p .init sessions = .ok srv ∧
          srv.counters.logicalChunkNum = (clientChunks clients).length ∧
          srv.counters.uniqueChunkNum ≤ (clientChunks clients).toFinset.card ∧
          (CiphertextsApart p clients →
            srv.counters.uniqueChunkNum = (clientChunks clients).toFinset.card ∧
              containerBytes srv.disk.written = (firsts id (clientChunks clients)).flatMap
                fun c => payload p (duplessCiphertext crypto key c)) := by
  refine ⟨fun client _ => ?_, fun sessions hsessions => ?_⟩
  · obtain ⟨sender, -, hrun, -⟩ := client.run
    exact ⟨sender, hrun⟩
  obtain ⟨srv, hrun, -⟩ := runPlainSessions_recipes p (orderly_clients hsessions)
  have hinv := runPlainSessions_inv (sized_clients hsessions) hrun
  have hreceived := receivedChunks_clients hsessions
  have hunique : srv.counters.uniqueChunkNum = ((clientChunks clients).toFinset.image
      fun c => p.crypto.generateHash (duplessCiphertext crypto key c)).card := by
    rw [hinv.uniqueChunkNum, hreceived, List.map_map]
    congr 1
    ext fp
    simp
  refine ⟨srv, hrun, ?_, ?_, fun hapart => ⟨?_, ?_⟩⟩
  · rw [hinv.logicalChunkNum, hreceived, List.length_map]
  · rw [hunique]
    exact Finset.card_image_le
  · rw [hunique]
    refine Finset.card_image_of_injOn fun a ha b hb => ?_
    exact hapart a (List.mem_toFinset.mp ha) b (List.mem_toFinset.mp hb)
  · rw [hinv.dedup.bytes, hreceived, hapart.firsts, List.flatMap_map]

/-- A client that blinds with one, in batches of two. -/
def smallClient : DupLESSClient maskCrypto smallKeyPair where
  params := smallDupless
  heap _ := 0
  chunks := [⟨[7, 8], by decide⟩, ⟨[9], by decide⟩]
  recipeHead := ⟨3, 2⟩
  crypto_eq := rfl
  publicKey_eq := rfl
  keyManager_eq := rfl
  batch_lt := by decide
  batchesFit := batchesFit_of_chunkBufferSize (p := smallDupless) (by decide) _
  nonempty := by decide
  inverses _ _ := Nat.gcd_one_left _

/-- A client that blinds with two. -/
def otherClient : DupLESSClient maskCrypto smallKeyPair where
  params := { smallDupless with rand := fun _ => 2 }
  heap _ := 1
  chunks := [⟨[9], by decide⟩, ⟨[5], by decide⟩, ⟨[7, 8], by decide⟩]
  recipeHead := ⟨4, 3⟩
  crypto_eq := rfl
  publicKey_eq := rfl
  keyManager_eq := rfl
  batch_lt := by decide
  batchesFit := batchesFit_of_chunkBufferSize (p := smallDupless) (by decide) _
  nonempty := by decide
  inverses _ _ := show Nat.gcd 2 smallKeyPair.clientKeyN = 1 by decide

/-- Of five chunks the server keeps three. -/
theorem dupless_clients_deduplicate_small :
    ∃ sessions srv, runPlainSessions smallParams .init sessions = .ok srv ∧
      srv.counters.logicalChunkNum = 5 ∧ srv.counters.uniqueChunkNum = 3 := by
  obtain ⟨hsend, hserve⟩ := dupless_clients_deduplicate smallParams [smallClient, otherClient]
  obtain ⟨a, ha⟩ := hsend smallClient (by simp)
  obtain ⟨b, hb⟩ := hsend otherClient (by simp)
  obtain ⟨srv, hrun, hlogical, -, hapart⟩ := hserve
    [⟨[1], ⟨0, 0⟩, a.sent.map fun m => (m, fun _ => 0)⟩,
      ⟨[2], ⟨0, 0⟩, b.sent.map fun m => (m, fun _ => 0)⟩]
    (.cons ⟨a, ha, by rw [List.map_map]; exact List.map_id _⟩
      (.cons ⟨b, hb, by rw [List.map_map]; exact List.map_id _⟩ .nil))
  have hunique := (hapart (by unfold CiphertextsApart; decide +kernel)).1
  exact ⟨_, srv, hrun, hlogical, hunique⟩

end Debe
