import Debe.Concurrent

/-!
# Boots, shutdowns and the enclave's keys

`main` opens the out-enclave index and calls `Ecall_Enclave_Init`, which takes
both keys from the key file or, when there is none, draws them.  Containers reach
the disk while the server runs.  Everything that is written once and read at the
next start is written by `CTRLC`: it joins the client threads, deletes the server
object, calls `Ecall_Enclave_Destroy`, which writes the key file when the keys
were drawn in this boot, and then deletes the index object, which rewrites the
index file.  The process can stop before any of these steps; it does so too in
the `exit(EXIT_FAILURE)` branches.

A `Machine` is the disk and the process running on it, if any.  Two things in it
are histories that the server does not read: each container and each index entry
carries the keys in force when it was made.

What the enclave index loads from its sealed files plays no part for the keys, so
a boot may load any index and any statistics.  Those files and the key file are
written through one shared stream; every writer closes it, so that the next can
open its own file.
-/

namespace Debe

/-- `enclaveKey_` and `indexQueryKey_`. -/
structure Keys where
  enclaveKey : Bytes
  indexQueryKey : Bytes
  length_enclaveKey : enclaveKey.length = chunkHashSize
  length_indexQueryKey : indexQueryKey.length = chunkHashSize
  deriving DecidableEq

/-- The buffer of `CHUNK_HASH_SIZE * 2` bytes that the key file is read into. -/
abbrev KeyBuffer := { b : Bytes // b.length = chunkHashSize * 2 }

/-- The key file as `Ecall_Enclave_Destroy` writes it. -/
def Keys.toBytes (k : Keys) : Bytes := k.enclaveKey ++ k.indexQueryKey

/-- The two halves of the buffer. -/
def Keys.ofBuffer (b : KeyBuffer) : Keys where
  enclaveKey := b.val.take chunkHashSize
  indexQueryKey := b.val.drop chunkHashSize
  length_enclaveKey := by
    rw [List.length_take, b.property]
    omega
  length_indexQueryKey := by
    rw [List.length_drop, b.property]
    omega

/-- `Ocall_ReadSealedData`: a file that is too short leaves the rest of the
buffer as `malloc` gave it. -/
def ocallReadSealedData (file : Bytes) (buffer : KeyBuffer) : KeyBuffer :=
  ⟨file.take (chunkHashSize * 2) ++ buffer.val.drop file.length, by
    rw [List.length_append, List.length_take, List.length_drop, buffer.property]
    omega⟩

/-- The keys and `firstBootstrap_` after `Ecall_Enclave_Init`.  A key file of
size zero counts as absent. -/
def ecallEnclaveInit (keyFile : Bytes) (drawn : Keys) (stale : KeyBuffer) : Keys × Bool :=
  if keyFile.length = 0 then (drawn, true)
  else (Keys.ofBuffer (ocallReadSealedData keyFile stale), false)

theorem Keys.length_toBytes (k : Keys) : k.toBytes.length = chunkHashSize * 2 := by
  rw [Keys.toBytes, List.length_append, k.length_enclaveKey, k.length_indexQueryKey]
  omega

/-- The keys of a whole key file. -/
theorem exists_keys {file : Bytes} (h : file.length = chunkHashSize * 2) :
    ∃ k : Keys, file = k.toBytes :=
  ⟨Keys.ofBuffer ⟨file, h⟩, (List.take_append_drop chunkHashSize file).symm⟩

/-- Reading a key file that was written whole. -/
theorem ofBuffer_read_toBytes (k : Keys) (stale : KeyBuffer) :
    Keys.ofBuffer (ocallReadSealedData k.toBytes stale) = k := by
  have hlen := k.length_toBytes
  have hread : ocallReadSealedData k.toBytes stale = ⟨k.toBytes, hlen⟩ := by
    apply Subtype.ext
    rw [ocallReadSealedData]
    dsimp only
    rw [List.take_of_length_le hlen.le, List.drop_of_length_le (by rw [stale.property, hlen]),
      List.append_nil]
  rw [hread]
  obtain ⟨e, q, he, hq⟩ := k
  simp only [Keys.ofBuffer, Keys.toBytes, Keys.mk.injEq]
  exact ⟨List.take_left' he, List.drop_left' he⟩

/-- A whole key file gives its keys back, whatever was drawn and whatever the
buffer held. -/
theorem ecallEnclaveInit_toBytes (k drawn : Keys) (stale : KeyBuffer) :
    ecallEnclaveInit k.toBytes drawn stale = (k, false) := by
  have hne : ¬ k.toBytes.length = 0 := by
    rw [k.length_toBytes]
    decide
  rw [ecallEnclaveInit, if_neg hne, ofBuffer_read_toBytes]

/-! ## The machine -/

/-- The enclave of a boot runs with the keys of that boot. -/
def Params.withKeys (p : Params) (k : Keys) : Params :=
  { p with enclaveKey := k.enclaveKey, indexQueryKey := k.indexQueryKey }

/-- An entry of the out-enclave index and the keys it was made under. -/
abbrev DbEntry := (Bytes × Bytes) × Keys

/-- What outlives the process: the key file, the containers with the keys they
were filled under, and the index file.  An absent file is an empty one. -/
structure Files where
  keyFile : Bytes
  containers : List (Container × Keys)
  draws : Nat
  saved : List (Bytes × RecipeEntry)
  db : List DbEntry

/-- Where `CTRLC` is: not called yet, server object deleted, key file open, key
file closed, index file open, index file closed. -/
inductive ShutdownStage
  | serving
  | cleared
  | keyFileOpen
  | destroyed
  | dbFileOpen
  | dbFileClosed
  deriving DecidableEq

/-- A running server process. -/
structure Process (p : Params) where
  keys : Keys
  firstBootstrap : Bool
  stage : ShutdownStage
  system : System (p.withKeys keys)
  indexObj : List DbEntry

/-- The disk, and the process on it, if any. -/
structure Machine (p : Params) where
  files : Files
  process : Option (Process p)

/-- The disk as the upload code sees it. -/
def Files.disk (f : Files) : Disk where
  written := f.containers.map Prod.fst
  draws := f.draws
  saved := f.saved

/-- What the upload code has added to the disk, made under `k`. -/
def Files.store (f : Files) (k : Keys) (d : Disk) : Files :=
  { f with
    containers := f.containers ++ (d.written.drop f.containers.length).map fun c => (c, k)
    draws := d.draws
    saved := d.saved }

/-- The out-enclave index after a step: an entry that was there keeps its keys,
the others are made under `k`. -/
def relabel (old : List DbEntry) (k : Keys) (out : OutIndex) : List DbEntry :=
  out.entries.map fun e =>
    ((e.1, e.2), ((old.find? fun o => o.1 = (e.1, e.2)).map Prod.snd).getD k)

/-- The process that `main` starts. -/
def Process.boot (p : Params) (f : Files) (drawn : Keys) (stale : KeyBuffer) (index : FreqIndex)
    (stats : Stats) : Process p where
  keys := (ecallEnclaveInit f.keyFile drawn stale).1
  firstBootstrap := (ecallEnclaveInit f.keyFile drawn stale).2
  stage := .serving
  system :=
    { index := index
      out := (f.db.map fun e => (⟨e.1.1, e.1.2⟩ : Sigma fun _ : Bytes => Bytes)).toAList
      disk := f.disk
      stats := stats
      slots := fun _ => none }
  indexObj := f.db

/-- What an output stream may have written of some entries before it is closed:
the first few, in the order of the hash table, and perhaps a torn one. -/
def Flushed (entries file : List DbEntry) : Prop :=
  ∃ (order : List DbEntry) (n : Nat) (torn : List DbEntry),
    order.Perm entries ∧ file = order.take n ++ torn ∧ torn.length ≤ 1 ∧
    ∀ e ∈ torn, ∃ e' ∈ order.drop n, e.2 = e'.2

/-- One step of the machine. -/
inductive Step (p : Params) : Machine p → Machine p → Prop
  /-- `main`, up to the accept loop. -/
  | boot (f : Files) (drawn : Keys) (stale : KeyBuffer) (index : FreqIndex) (stats : Stats) :
      Step p ⟨f, none⟩ ⟨f, some (.boot p f drawn stale index stats)⟩
  /-- Sections of any sessions. -/
  | serve (f : Files) (proc : Process p) (actions : List (Action (p.withKeys proc.keys)))
      (sys : System (p.withKeys proc.keys)) (hstage : proc.stage = .serving)
      (hrun : System.run (p.withKeys proc.keys) proc.system actions = .ok sys) :
      Step p ⟨f, some proc⟩ ⟨f.store proc.keys sys.disk,
        some { proc with system := sys, indexObj := relabel proc.indexObj proc.keys sys.out }⟩
  /-- All client threads have been joined; `delete serverThreadObj`. -/
  | clear (f : Files) (proc : Process p) (hstage : proc.stage = .serving)
      (hjoin : ∀ i slot, proc.system.slots i = some slot → slot.stage = .returned) :
      Step p ⟨f, some proc⟩ ⟨f, some { proc with stage := .cleared }⟩
  /-- `Ecall_Enclave_Destroy` with the keys read from the key file. -/
  | keepKeyFile (f : Files) (proc : Process p) (hstage : proc.stage = .cleared)
      (hfirst : proc.firstBootstrap = false) :
      Step p ⟨f, some proc⟩ ⟨f, some { proc with stage := .destroyed }⟩
  /-- `Ecall_Enclave_Destroy` truncates the key file. -/
  | openKeyFile (f : Files) (proc : Process p) (hstage : proc.stage = .cleared)
      (hfirst : proc.firstBootstrap = true) :
      Step p ⟨f, some proc⟩ ⟨{ f with keyFile := [] }, some { proc with stage := .keyFileOpen }⟩
  /-- Part of the keys leaves the stream's buffer. -/
  | flushKeyFile (f : Files) (proc : Process p) (n : Nat) (hstage : proc.stage = .keyFileOpen) :
      Step p ⟨f, some proc⟩ ⟨{ f with keyFile := proc.keys.toBytes.take n }, some proc⟩
  /-- `Ocall_CloseWriteSealedFile`. -/
  | closeKeyFile (f : Files) (proc : Process p) (hstage : proc.stage = .keyFileOpen) :
      Step p ⟨f, some proc⟩
        ⟨{ f with keyFile := proc.keys.toBytes }, some { proc with stage := .destroyed }⟩
  /-- `delete fp2ChunkDB` truncates the index file. -/
  | openDb (f : Files) (proc : Process p) (hstage : proc.stage = .destroyed) :
      Step p ⟨f, some proc⟩ ⟨{ f with db := [] }, some { proc with stage := .dbFileOpen }⟩
  /-- Part of the index leaves the stream's buffer. -/
  | flushDb (f : Files) (proc : Process p) (db : List DbEntry) (hstage : proc.stage = .dbFileOpen)
      (hflush : Flushed proc.indexObj db) :
      Step p ⟨f, some proc⟩ ⟨{ f with db := db }, some proc⟩
  /-- The index file is closed. -/
  | closeDb (f : Files) (proc : Process p) (db : List DbEntry) (hstage : proc.stage = .dbFileOpen)
      (hperm : db.Perm proc.indexObj) :
      Step p ⟨f, some proc⟩ ⟨{ f with db := db }, some { proc with stage := .dbFileClosed }⟩
  /-- The process ends, at the end of `CTRLC` or anywhere before. -/
  | stop (f : Files) (proc : Process p) : Step p ⟨f, some proc⟩ ⟨f, none⟩

/-! ## The keys on disk -/

/-- The process has drawn its keys, and the key file is not closed yet. -/
def Process.owesKeys {p : Params} (proc : Process p) : Bool :=
  match proc.stage with
  | .serving | .cleared => proc.firstBootstrap
  | .keyFileOpen => true
  | .destroyed | .dbFileOpen | .dbFileClosed => false

/-- The key file holds `k`, and the process, if any, runs with `k` and will not
touch the file. -/
structure Settled {p : Params} (k : Keys) (m : Machine p) : Prop where
  keyFile : m.files.keyFile = k.toBytes
  process : ∀ proc, m.process = some proc → proc.keys = k ∧ proc.owesKeys = false

/-- A boot that has drawn `k` and has still to write it.  The index file is
rewritten only afterwards. -/
structure FirstBoot {p : Params} (k : Keys) (m : Machine p) : Prop where
  process : ∃ proc, m.process = some proc ∧ proc.keys = k ∧ proc.owesKeys = true
  db : m.files.db = []

/-- Everything on disk and in the index object was made under `k`. -/
structure Labelled {p : Params} (k : Keys) (m : Machine p) : Prop where
  containers : ∀ e ∈ m.files.containers, e.2 = k
  db : ∀ e ∈ m.files.db, e.2 = k
  indexObj : ∀ proc, m.process = some proc → ∀ e ∈ proc.indexObj, e.2 = k

/-- Nothing on disk and nothing running. -/
structure Blank {p : Params} (m : Machine p) : Prop where
  process : m.process = none
  keyFile : m.files.keyFile = []
  containers : m.files.containers = []
  db : m.files.db = []

section Steps

variable {p : Params} {k : Keys} {m m' : Machine p}

theorem settled_running {f : Files} {proc : Process p} (hfile : f.keyFile = k.toBytes)
    (hkeys : proc.keys = k) (howes : proc.owesKeys = false) : Settled k ⟨f, some proc⟩ := by
  refine ⟨hfile, fun _ hp => ?_⟩
  cases hp
  exact ⟨hkeys, howes⟩

/-- **Once the key file is written the keys stay**, wherever the process stops. -/
theorem Settled.step (h : Settled k m) (hstep : Step p m m') : Settled k m' := by
  obtain ⟨hfile, hproc⟩ := h
  cases hstep with
  | boot f drawn stale index stats =>
      have hfile' : f.keyFile = k.toBytes := hfile
      refine settled_running hfile ?_ ?_ <;>
        simp only [Process.boot, Process.owesKeys, hfile', ecallEnclaveInit_toBytes]
  | serve f proc actions sys hstage hrun =>
      exact settled_running hfile (hproc proc rfl).1 (hproc proc rfl).2
  | clear f proc hstage hjoin =>
      have howes := (hproc proc rfl).2
      rw [Process.owesKeys, hstage] at howes
      exact settled_running hfile (hproc proc rfl).1 howes
  | keepKeyFile f proc hstage hfirst => exact settled_running hfile (hproc proc rfl).1 rfl
  | openKeyFile f proc hstage hfirst =>
      have howes := (hproc proc rfl).2
      rw [Process.owesKeys, hstage, hfirst] at howes
      cases howes
  | flushKeyFile f proc n hstage =>
      have howes := (hproc proc rfl).2
      rw [Process.owesKeys, hstage] at howes
      cases howes
  | closeKeyFile f proc hstage =>
      have howes := (hproc proc rfl).2
      rw [Process.owesKeys, hstage] at howes
      cases howes
  | openDb f proc hstage => exact settled_running hfile (hproc proc rfl).1 rfl
  | flushDb f proc db hstage hflush => exact ⟨hfile, hproc⟩
  | closeDb f proc db hstage hperm => exact settled_running hfile (hproc proc rfl).1 rfl
  | stop f proc =>
      refine ⟨hfile, fun _ hp => ?_⟩
      cases hp

/-- The process stops while the key file does not hold its keys, although a
container is on disk or part of the keys is in the file. -/
def LosesKeys (m : Machine p) : Prop :=
  ∃ proc, m.process = some proc ∧ proc.owesKeys = true ∧ m.files.keyFile ≠ proc.keys.toBytes ∧
    (m.files.containers ≠ [] ∨ m.files.keyFile ≠ [])

/-- A step that does not lose keys. -/
def OrderlyStep (p : Params) (m m' : Machine p) : Prop :=
  Step p m m' ∧ (m'.process = none → ¬ LosesKeys m)

/-- A first boot goes on, or has written its keys, or leaves nothing behind. -/
theorem FirstBoot.step (h : FirstBoot k m) (hstep : OrderlyStep p m m') :
    FirstBoot k m' ∨ Settled k m' ∨ Blank m' := by
  obtain ⟨⟨proc, hproc, hkeys, howes⟩, hdb⟩ := h
  obtain ⟨hstep, hkeep⟩ := hstep
  cases hstep with
  | boot f drawn stale index stats => cases hproc
  | serve f proc actions sys hstage hrun =>
      cases hproc
      exact Or.inl ⟨⟨_, rfl, hkeys, howes⟩, hdb⟩
  | clear f proc hstage hjoin =>
      cases hproc
      rw [Process.owesKeys, hstage] at howes
      exact Or.inl ⟨⟨_, rfl, hkeys, howes⟩, hdb⟩
  | keepKeyFile f proc hstage hfirst =>
      cases hproc
      rw [Process.owesKeys, hstage, hfirst] at howes
      cases howes
  | openKeyFile f proc hstage hfirst =>
      cases hproc
      exact Or.inl ⟨⟨_, rfl, hkeys, rfl⟩, hdb⟩
  | flushKeyFile f proc n hstage =>
      cases hproc
      exact Or.inl ⟨⟨_, rfl, hkeys, howes⟩, hdb⟩
  | closeKeyFile f proc hstage =>
      cases hproc
      exact Or.inr (Or.inl (settled_running (congrArg Keys.toBytes hkeys) hkeys rfl))
  | openDb f proc hstage =>
      cases hproc
      rw [Process.owesKeys, hstage] at howes
      cases howes
  | flushDb f proc db hstage hflush =>
      cases hproc
      rw [Process.owesKeys, hstage] at howes
      cases howes
  | closeDb f proc db hstage hperm =>
      cases hproc
      rw [Process.owesKeys, hstage] at howes
      cases howes
  | stop f proc =>
      cases hproc
      by_cases hfile : f.keyFile = proc.keys.toBytes
      · rw [hkeys] at hfile
        refine Or.inr (Or.inl ⟨hfile, fun _ hp => ?_⟩)
        cases hp
      · -- an orderly stop with the keys unwritten has nothing on disk
        have hnone : ¬ (f.containers ≠ [] ∨ f.keyFile ≠ []) := by
          intro hsome
          exact hkeep rfl ⟨proc, rfl, howes, hfile, hsome⟩
        rw [not_or, not_not, not_not] at hnone
        exact Or.inr (Or.inr ⟨rfl, hnone.2, hnone.1, hdb⟩)

/-- Containers are only added. -/
theorem Step.containers (hstep : Step p m m') : m.files.containers <+: m'.files.containers := by
  cases hstep with
  | serve f proc actions sys hstage hrun => exact List.prefix_append _ _
  | _ => exact List.prefix_rfl

/-- A flushed or closed index file holds entries with the labels of the object. -/
theorem Flushed.labels {entries file : List DbEntry} (h : Flushed entries file)
    (hk : ∀ e ∈ entries, e.2 = k) : ∀ e ∈ file, e.2 = k := by
  obtain ⟨order, n, torn, hperm, hfile, _, htorn⟩ := h
  intro e he
  rw [hfile] at he
  rcases List.mem_append.mp he with he | he
  · exact hk e (hperm.mem_iff.mp (List.mem_of_mem_take he))
  · obtain ⟨e', he', heq⟩ := htorn e he
    rw [heq]
    exact hk e' (hperm.mem_iff.mp (List.mem_of_mem_drop he'))

theorem relabel_labels {old : List DbEntry} {k' : Keys} {out : OutIndex} (hk' : k' = k)
    (hk : ∀ e ∈ old, e.2 = k) : ∀ e ∈ relabel old k' out, e.2 = k := by
  intro e he
  obtain ⟨o, _, heq⟩ := List.mem_map.mp he
  rw [← heq]
  dsimp only
  cases hfind : old.find? fun d => d.1 = (o.1, o.2) with
  | none => exact hk'
  | some d => exact hk d (List.mem_of_find?_eq_some hfind)

/-- A process that runs with `k` adds only what is made under `k`. -/
theorem Labelled.step (h : Labelled k m) (hkeys : ∀ proc, m.process = some proc → proc.keys = k)
    (hstep : Step p m m') : Labelled k m' := by
  obtain ⟨hcont, hdb, hindex⟩ := h
  cases hstep with
  | boot f drawn stale index stats =>
      refine ⟨hcont, hdb, fun _ hp => ?_⟩
      cases hp
      exact hdb
  | serve f proc actions sys hstage hrun =>
      have hk := hkeys proc rfl
      refine ⟨?_, hdb, fun _ hp => ?_⟩
      · intro e he
        rcases List.mem_append.mp he with he | he
        · exact hcont e he
        · obtain ⟨c, _, heq⟩ := List.mem_map.mp he
          rw [← heq]
          exact hk
      · cases hp
        exact relabel_labels hk (hindex proc rfl)
  | openDb f proc hstage =>
      refine ⟨hcont, fun e he => ?_, fun _ hp => ?_⟩
      · cases he
      · cases hp
        exact hindex proc rfl
  | flushDb f proc db hstage hflush => exact ⟨hcont, hflush.labels (hindex proc rfl), hindex⟩
  | closeDb f proc db hstage hperm =>
      refine ⟨hcont, fun e he => hindex proc rfl e (hperm.mem_iff.mp he), fun _ hp => ?_⟩
      cases hp
      exact hindex proc rfl
  | stop f proc =>
      refine ⟨hcont, hdb, fun _ hp => ?_⟩
      cases hp
  | _ =>
      refine ⟨hcont, hdb, fun _ hp => ?_⟩
      have hold := hindex _ rfl
      cases hp
      exact hold

end Steps

/-! ## Whole runs -/

/-- All that an orderly run can have made of the machine. -/
inductive KeyState {p : Params} (m : Machine p) : Prop
  | blank (h : Blank m)
  | firstBoot (k : Keys) (h : FirstBoot k m) (hlabel : Labelled k m)
  | settled (k : Keys) (h : Settled k m) (hlabel : Labelled k m)

section Runs

variable {p : Params} {k : Keys} {m m' : Machine p}

/-- With nothing on disk there is nothing to label. -/
theorem Blank.labelled (h : Blank m) (k : Keys) : Labelled k m where
  containers := by
    rw [h.containers]
    exact List.forall_mem_nil _
  db := by
    rw [h.db]
    exact List.forall_mem_nil _
  indexObj := by
    intro proc hp
    rw [h.process] at hp
    cases hp

/-- The first step on a blank machine is a boot that draws its keys. -/
theorem Blank.step (h : Blank m) (hstep : Step p m m') : ∃ k, FirstBoot k m' := by
  have hnone := h.process
  cases hstep with
  | boot f drawn stale index stats =>
      have hfile : f.keyFile = [] := h.keyFile
      refine ⟨drawn, ⟨_, rfl, ?_, ?_⟩, h.db⟩ <;>
        simp [Process.boot, Process.owesKeys, ecallEnclaveInit, hfile]
  | _ => cases hnone

theorem FirstBoot.keys (h : FirstBoot k m) : ∀ proc, m.process = some proc → proc.keys = k := by
  intro proc hp
  obtain ⟨⟨proc', hproc, hkeys, _⟩, _⟩ := h
  rw [hproc] at hp
  cases hp
  exact hkeys

theorem KeyState.step (h : KeyState m) (hstep : OrderlyStep p m m') : KeyState m' := by
  cases h with
  | blank hblank =>
      obtain ⟨k, hfirst⟩ := hblank.step hstep.1
      refine .firstBoot k hfirst ((hblank.labelled k).step ?_ hstep.1)
      intro proc hp
      rw [hblank.process] at hp
      cases hp
  | firstBoot k hfirst hlabel =>
      have hlabel' := hlabel.step hfirst.keys hstep.1
      rcases hfirst.step hstep with hfirst' | hsettled | hblank
      · exact .firstBoot k hfirst' hlabel'
      · exact .settled k hsettled hlabel'
      · exact .blank hblank
  | settled k hsettled hlabel =>
      exact .settled k (hsettled.step hstep.1)
        (hlabel.step (fun proc hp => (hsettled.process proc hp).1) hstep.1)

/-- The keys of what is on disk are in the key file, or in the process that will
write them. -/
def Held (k : Keys) (m : Machine p) : Prop :=
  Settled k m ∨ (FirstBoot k m ∧ m.files.containers ≠ [])

theorem Held.step (h : Held k m) (hstep : OrderlyStep p m m') : Held k m' := by
  rcases h with hsettled | hfirst
  · exact Or.inl (hsettled.step hstep.1)
  · obtain ⟨hfirst, hcont⟩ := hfirst
    have hcont' : m'.files.containers ≠ [] := by
      intro hnil
      have hpre := hstep.1.containers
      rw [hnil] at hpre
      exact hcont (List.prefix_nil.mp hpre)
    rcases hfirst.step hstep with hfirst' | hsettled | hblank
    · exact Or.inr ⟨hfirst', hcont'⟩
    · exact Or.inl hsettled
    · exact absurd hblank.containers hcont'

/-- An orderly run. -/
abbrev OrderlyRun (p : Params) : Machine p → Machine p → Prop :=
  Relation.ReflTransGen (OrderlyStep p)

theorem OrderlyRun.keyState (h : KeyState m) (hrun : OrderlyRun p m m') : KeyState m' := by
  induction hrun with
  | refl => exact h
  | tail _ hstep ih => exact ih.step hstep

theorem OrderlyRun.held (h : Held k m) (hrun : OrderlyRun p m m') : Held k m' := by
  induction hrun with
  | refl => exact h
  | tail _ hstep ih => exact ih.step hstep

/-- A machine that has never run, with or without a key file. -/
structure Files.New (f : Files) : Prop where
  keyFile : f.keyFile = [] ∨ f.keyFile.length = chunkHashSize * 2
  containers : f.containers = []
  db : f.db = []

theorem Files.New.keyState {f : Files} (h : f.New) : KeyState (⟨f, none⟩ : Machine p) := by
  rcases h.keyFile with hnil | hwhole
  · exact .blank ⟨rfl, hnil, h.containers, h.db⟩
  · obtain ⟨k, hk⟩ := exists_keys hwhole
    refine .settled k ⟨hk, fun _ hp => ?_⟩ ⟨?_, ?_, fun _ hp => ?_⟩
    · cases hp
    · rw [h.containers]
      exact List.forall_mem_nil _
    · rw [h.db]
      exact List.forall_mem_nil _
    · cases hp

/-- Whatever is on disk in an orderly run is held under its keys. -/
theorem KeyState.held (h : KeyState m) :
    (∀ e ∈ m.files.containers, Held e.2 m) ∧ ∀ e ∈ m.files.db, Held e.2 m := by
  cases h with
  | blank hblank =>
      rw [hblank.containers, hblank.db]
      exact ⟨List.forall_mem_nil _, List.forall_mem_nil _⟩
  | firstBoot k hfirst hlabel =>
      constructor
      · intro e he
        rw [hlabel.containers e he]
        exact Or.inr ⟨hfirst, List.ne_nil_of_mem he⟩
      · rw [hfirst.db]
        exact List.forall_mem_nil _
  | settled k hsettled hlabel =>
      constructor
      · intro e he
        rw [hlabel.containers e he]
        exact Or.inl hsettled
      · intro e he
        rw [hlabel.db e he]
        exact Or.inl hsettled

/-- With no process running, held keys are those the next boot takes. -/
theorem Held.init (h : Held k m) (hnone : m.process = none) (drawn : Keys) (stale : KeyBuffer) :
    (ecallEnclaveInit m.files.keyFile drawn stale).1 = k := by
  rcases h with hsettled | hfirst
  · rw [hsettled.keyFile, ecallEnclaveInit_toBytes]
  · obtain ⟨proc, hproc, _⟩ := hfirst.1.process
    rw [hnone] at hproc
    cases hproc

end Runs

/-- **Keys outlive the process.**  Take any orderly run of a new machine and any
state `m` on the way.  Whatever `Ecall_Enclave_Init` runs from there on takes the
keys under which the containers and the index file in `m` were made. -/
theorem keys_outlive_process {p : Params} {f : Files} (hf : f.New) {m m' : Machine p}
    (hrun : OrderlyRun p ⟨f, none⟩ m) (hrun' : OrderlyRun p m m') (hnone : m'.process = none)
    (drawn : Keys) (stale : KeyBuffer) :
    (∀ e ∈ m.files.containers,
      (ecallEnclaveInit m'.files.keyFile drawn stale).1.enclaveKey = e.2.enclaveKey) ∧
    ∀ e ∈ m.files.db,
      (ecallEnclaveInit m'.files.keyFile drawn stale).1.indexQueryKey = e.2.indexQueryKey := by
  obtain ⟨hcont, hdb⟩ := (hrun.keyState hf.keyState).held
  constructor
  · intro e he
    rw [(hrun'.held (hcont e he)).init hnone]
  · intro e he
    rw [(hrun'.held (hdb e he)).init hnone]

/-- Keys of one repeated byte. -/
def smallKeys (b : UInt8) : Keys where
  enclaveKey := List.replicate chunkHashSize b
  indexQueryKey := List.replicate chunkHashSize b
  length_enclaveKey := List.length_replicate
  length_indexQueryKey := List.length_replicate

/-- An empty disk. -/
def Files.empty : Files := ⟨[], [], 0, [], []⟩

/-- The same session with other keys in the enclave, of which clients know nothing. -/
def UploadSession.withKeys {p : Params} (s : UploadSession p) (k : Keys) :
    UploadSession (p.withKeys k) where
  recipePath := s.recipePath
  sessionKey := s.sessionKey
  masterKey := s.masterKey
  iv := s.iv
  virtualRecipeEnd := s.virtualRecipeEnd
  batches := s.batches.map fun b => ⟨b.chunks, b.length_le, b.length_lt⟩
  recipeEnd := s.recipeEnd

/-- A whole session: login, seven sections of the batch, the tail, the return. -/
def keyedActions (k : Keys) : List (Action (smallParams.withKeys k)) :=
  .login 0 ((smallSession (some ⟨1, 1⟩)).withKeys k) :: List.replicate 9 (.advance 0)

/-- The buffer that the key file is read into, all zeros. -/
def zeroBuffer : KeyBuffer := ⟨List.replicate (chunkHashSize * 2) 0, List.length_replicate⟩

/-- The first boot. -/
def smallBoot (k : Keys) : Process smallParams :=
  .boot smallParams .empty k zeroBuffer .init {}

/-- The session stores a container and its thread returns. -/
theorem keyedActions_run :
    ∃ sys, System.run (smallParams.withKeys (smallKeys 1)) (smallBoot (smallKeys 1)).system
        (keyedActions (smallKeys 1)) = .ok sys ∧
      (∀ i slot, sys.slots i = some slot → slot.stage = .returned) ∧ sys.disk.written ≠ [] := by
  refine ⟨_, rfl, ?_, List.cons_ne_nil _ _⟩
  intro i slot hi
  cases i with
  | zero =>
      cases hi
      rfl
  | succ n => cases hi

/-- What the first boot leaves on disk. -/
def smallFiles (sys : System (smallParams.withKeys (smallKeys 1))) : Files :=
  Files.empty.store (smallKeys 1) sys.disk

/-- The containers of the first boot carry its keys. -/
theorem smallFiles_containers {sys : System (smallParams.withKeys (smallKeys 1))}
    (h : sys.disk.written ≠ []) : ∃ c, (c, smallKeys 1) ∈ (smallFiles sys).containers := by
  obtain ⟨c, hc⟩ := List.exists_mem_of_ne_nil _ h
  refine ⟨c, ?_⟩
  simpa [smallFiles, Files.store, Files.empty] using hc

/-- The first boot stores a chunk and is shut down cleanly; the next boot, which
could draw other keys, takes the old ones. -/
theorem keys_outlive_process_small :
    ∃ m m' : Machine smallParams, OrderlyRun smallParams ⟨.empty, none⟩ m ∧
      OrderlyRun smallParams m m' ∧ m'.process = none ∧
      ∃ e ∈ m.files.containers, e.2 = smallKeys 1 ∧
        (ecallEnclaveInit m'.files.keyFile (smallKeys 2) zeroBuffer).1.enclaveKey =
          e.2.enclaveKey := by
  obtain ⟨sys, hrun, hjoin, hwritten⟩ := keyedActions_run
  obtain ⟨c, hc⟩ := smallFiles_containers hwritten
  let proc : Process smallParams := { smallBoot (smallKeys 1) with
    system := sys
    indexObj := relabel [] (smallKeys 1) sys.out }
  let files := { smallFiles sys with keyFile := (smallKeys 1).toBytes, db := proc.indexObj }
  have hup : OrderlyRun smallParams ⟨.empty, none⟩ ⟨smallFiles sys, some proc⟩ :=
    .head ⟨.boot _ (smallKeys 1) zeroBuffer .init {}, by simp⟩
      (.single ⟨.serve _ (smallBoot (smallKeys 1)) _ sys rfl hrun, by simp⟩)
  have hdown : OrderlyRun smallParams ⟨smallFiles sys, some proc⟩ ⟨files, none⟩ :=
    .head ⟨.clear _ _ rfl hjoin, by simp⟩ <|
    .head ⟨.openKeyFile _ _ rfl rfl, by simp⟩ <|
    .head ⟨.closeKeyFile _ _ rfl, by simp⟩ <|
    .head ⟨.openDb _ _ rfl, by simp⟩ <|
    .head ⟨.closeDb _ _ _ rfl (List.Perm.refl _), by simp⟩ <|
    .single ⟨.stop _ _, by
      intro _ hloses
      obtain ⟨proc', hproc, howes, _⟩ := hloses
      cases hproc
      cases howes⟩
  refine ⟨_, _, hup, hdown, rfl, _, hc, rfl, ?_⟩
  exact (keys_outlive_process ⟨Or.inl rfl, rfl, rfl⟩ hup hdown rfl (smallKeys 2) zeroBuffer).1 _ hc

/-- The first boot stores a chunk and stops without a clean shutdown, for instance
on an unexpected message type.  The next one draws other keys. -/
theorem first_boot_loses_keys :
    ∃ m : Machine smallParams, Relation.ReflTransGen (Step smallParams) ⟨.empty, none⟩ m ∧
      m.process = none ∧ ∃ e ∈ m.files.containers,
        (ecallEnclaveInit m.files.keyFile (smallKeys 2) zeroBuffer).1.enclaveKey ≠
          e.2.enclaveKey := by
  obtain ⟨sys, hrun, _, hwritten⟩ := keyedActions_run
  obtain ⟨c, hc⟩ := smallFiles_containers hwritten
  have hdiffer : (smallKeys 2).enclaveKey ≠ (smallKeys 1).enclaveKey := by decide
  refine ⟨⟨smallFiles sys, none⟩, ?_, rfl, _, hc, hdiffer⟩
  exact .head (.boot _ (smallKeys 1) zeroBuffer .init {}) <|
    .head (.serve _ (smallBoot (smallKeys 1)) _ sys rfl hrun) <| .single (.stop _ _)

end Debe
