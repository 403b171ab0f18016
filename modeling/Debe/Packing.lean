import Debe.SessionRuns

/-!
# How containers are packed

`SaveChunk` keeps two buffers in step: the in-enclave container, which receives
the bytes, and the outside one, which carries the name and is filled and emptied
by the ocall in the middle of the function.  Here a whole upload is looked at
from the containers' side.  The chunks that went into one container lie in it
without a gap, from its first byte to its `currentSize`, each ciphertext followed
by the IV it was made with, and every chunk lies in one container only.
-/

namespace Debe

/-- What is left of a chunk after `SaveChunk`: its ciphertext, the IV it was made
with and the address that came back. -/
structure PackedChunk where
  cipher : Bytes
  iv : IV
  addr : RecipeEntry
  deriving DecidableEq, Repr

namespace PackedChunk

/-- The bytes that the container receives for the chunk. -/
def record (r : PackedChunk) : Bytes := r.cipher ++ r.iv.toBytes

/-- Where the chunk's range ends. -/
def stop (r : PackedChunk) : Nat :=
  r.addr.offset.toNat + r.addr.length.toNat + cryptoBlockSize

end PackedChunk

/-- `PickNewIV`, then `SaveChunk` on what was encrypted under the new IV. -/
def packChunk (p : Params) (cipher : Bytes) (u : Upload) : PackedChunk × Upload :=
  let iv := pickNewIV u.client.iv
  let r := saveChunk p cipher { u with client := { u.client with iv := iv } }
  ({ cipher := cipher, iv := iv, addr := r.1 }, r.2)

/-- The same for one chunk after another. -/
def packChunks (p : Params) : List Bytes → Upload → List PackedChunk × Upload
  | [], u => ([], u)
  | cipher :: rest, u =>
      let r := packChunk p cipher u
      let s := packChunks p rest r.2
      (r.1 :: s.1, s.2)

/-- An upload from its first chunk to its last container. -/
def packUpload (p : Params) (ciphers : List Bytes) (u : Upload) : List PackedChunk × Upload :=
  let r := packChunks p ciphers u
  (r.1, processLastContainer p (processTailBatch p r.2))

/-- The ranges of the chunks follow one another from `start` to `stop`. -/
def Tiles : Nat → List PackedChunk → Nat → Prop
  | start, [], stop => start = stop
  | start, r :: rest, stop => r.addr.offset.toNat = start ∧ Tiles r.stop rest stop

/-- The chunks whose address names the container. -/
def chunksOf (id : ContainerID) (l : List PackedChunk) : List PackedChunk :=
  l.filter fun r => r.addr.containerName = id

/-- The container holds exactly those of the chunks whose address names it. -/
structure FilledBy (l : List PackedChunk) (c : Container) : Prop where
  room : c.body.length < maxContainerSize
  tiles : Tiles 0 (chunksOf c.containerID l) c.body.length
  body : c.body = (chunksOf c.containerID l).flatMap PackedChunk.record
  sizes : ∀ r ∈ chunksOf c.containerID l, r.addr.length.toNat = r.cipher.length

/-! ## Ranges -/

theorem mem_chunksOf {id : ContainerID} {l : List PackedChunk} {r : PackedChunk} :
    r ∈ chunksOf id l ↔ r ∈ l ∧ r.addr.containerName = id := by
  simp [chunksOf]

theorem chunksOf_append (id : ContainerID) (l l' : List PackedChunk) :
    chunksOf id (l ++ l') = chunksOf id l ++ chunksOf id l' :=
  List.filter_append ..

theorem chunksOf_eq_nil {id : ContainerID} {l : List PackedChunk}
    (h : ∀ r ∈ l, r.addr.containerName ≠ id) : chunksOf id l = [] := by
  rw [chunksOf, List.filter_eq_nil_iff]
  intro r hr
  simpa using h r hr

theorem length_record (r : PackedChunk) :
    r.record.length = r.cipher.length + cryptoBlockSize := by
  rw [PackedChunk.record, List.length_append, IV.length_toBytes]

theorem Tiles.append {start mid stop : Nat} {l l' : List PackedChunk} (h : Tiles start l mid)
    (h' : Tiles mid l' stop) : Tiles start (l ++ l') stop := by
  induction l generalizing start with
  | nil => exact (show start = mid from h) ▸ h'
  | cons r rest ih => exact ⟨h.1, ih h.2⟩

/-- Ranges only move forward, and an IV takes room even after an empty chunk. -/
theorem Tiles.le {start stop : Nat} {l : List PackedChunk} (h : Tiles start l stop) :
    start + cryptoBlockSize * l.length ≤ stop := by
  induction l generalizing start with
  | nil => exact (show start = stop from h).le
  | cons r rest ih =>
      obtain ⟨hstart, hrest⟩ := h
      have hle := ih hrest
      rw [List.length_cons, Nat.mul_succ]
      unfold PackedChunk.stop at hle
      omega

/-- Every range lies where the tiling says. -/
theorem Tiles.bounds {start stop : Nat} {l : List PackedChunk} (h : Tiles start l stop)
    {r : PackedChunk} (hr : r ∈ l) : start ≤ r.addr.offset.toNat ∧ r.stop ≤ stop := by
  induction l generalizing start with
  | nil => cases hr
  | cons s rest ih =>
      obtain ⟨hstart, hrest⟩ := h
      rcases List.mem_cons.mp hr with rfl | hr
      · exact ⟨hstart.ge, (Nat.le_add_right _ _).trans hrest.le⟩
      · obtain ⟨hlow, hhigh⟩ := ih hrest hr
        have hs : s.addr.offset.toNat ≤ s.stop := by
          unfold PackedChunk.stop
          omega
        exact ⟨by omega, hhigh⟩

/-- Different positions of a tiling have disjoint ranges. -/
theorem Tiles.pairwise {start stop : Nat} {l : List PackedChunk} (h : Tiles start l stop) :
    l.Pairwise fun r s => r.stop ≤ s.addr.offset.toNat := by
  induction l generalizing start with
  | nil => exact .nil
  | cons r rest ih =>
      obtain ⟨-, hrest⟩ := h
      exact .cons (fun s hs => (hrest.bounds hs).1) (ih hrest)

/-- In bytes that consist of the records alone, each address selects its record. -/
theorem Tiles.slice {start stop : Nat} {l : List PackedChunk} {body : Bytes}
    (h : Tiles start l stop) (hbody : body.drop start = l.flatMap PackedChunk.record)
    (hsizes : ∀ r ∈ l, r.addr.length.toNat = r.cipher.length) {r : PackedChunk} (hr : r ∈ l) :
    slice body r.addr = r.record := by
  induction l generalizing start with
  | nil => cases hr
  | cons s rest ih =>
      obtain ⟨hstart, hrest⟩ := h
      have hlen : s.record.length = s.addr.length.toNat + cryptoBlockSize := by
        rw [length_record, hsizes s List.mem_cons_self]
      rcases List.mem_cons.mp hr with rfl | hr
      · rw [Debe.slice, hstart, hbody, List.flatMap_cons, ← hlen, List.take_left]
      · refine ih hrest ?_ (fun t ht => hsizes t (List.mem_cons_of_mem s ht)) hr
        have hstop : s.stop = start + s.record.length := by
          rw [hlen, PackedChunk.stop, hstart, Nat.add_assoc]
        rw [hstop, ← List.drop_drop, hbody, List.flatMap_cons, List.drop_left]

/-- What the container holds is found under the addresses. -/
theorem FilledBy.slice {l : List PackedChunk} {c : Container} (h : FilledBy l c) {r : PackedChunk}
    (hr : r ∈ l) (hname : r.addr.containerName = c.containerID) :
    slice c.body r.addr = r.record :=
  h.tiles.slice h.body h.sizes (mem_chunksOf.mpr ⟨hr, hname⟩)

/-- A container under a name that no chunk has yet holds nothing. -/
theorem filledBy_nil {l : List PackedChunk} {id : ContainerID}
    (hnew : ∀ r ∈ l, r.addr.containerName ≠ id) : FilledBy l { containerID := id, body := [] } := by
  have hnil : chunksOf id l = [] := chunksOf_eq_nil hnew
  exact {
    room := by simp [maxContainerSize]
    tiles := by
      rw [hnil]
      rfl
    body := by rw [hnil, List.flatMap_nil]
    sizes := by simp [hnil] }

/-- A chunk of another container changes nothing. -/
theorem FilledBy.other {l : List PackedChunk} {c : Container} (h : FilledBy l c) {r : PackedChunk}
    (hname : r.addr.containerName ≠ c.containerID) : FilledBy (l ++ [r]) c := by
  have hsame : chunksOf c.containerID (l ++ [r]) = chunksOf c.containerID l := by
    rw [chunksOf_append, chunksOf_eq_nil (l := [r]) (by simpa using hname), List.append_nil]
  exact {
    room := h.room
    tiles := hsame ▸ h.tiles
    body := hsame ▸ h.body
    sizes := hsame ▸ h.sizes }

/-- A chunk that is put behind the others. -/
theorem FilledBy.snoc {l : List PackedChunk} {c : Container} (h : FilledBy l c) {r : PackedChunk}
    (hname : r.addr.containerName = c.containerID)
    (hoffset : r.addr.offset.toNat = c.body.length)
    (hsize : r.addr.length.toNat = r.cipher.length)
    (hfit : cryptoBlockSize + r.cipher.length + c.body.length < maxContainerSize) :
    FilledBy (l ++ [r]) { c with body := c.body ++ r.record } := by
  have hsame : chunksOf c.containerID (l ++ [r]) = chunksOf c.containerID l ++ [r] := by
    rw [chunksOf_append]
    congr 1
    simp [chunksOf, hname]
  have hlen : (c.body ++ r.record).length = r.stop := by
    rw [List.length_append, length_record, PackedChunk.stop, hoffset, hsize, Nat.add_assoc]
  exact {
    room := by
      rw [List.length_append, length_record]
      omega
    tiles := by
      rw [hsame]
      exact h.tiles.append ⟨hoffset, hlen.symm⟩
    body := by
      rw [hsame, List.flatMap_append, ← h.body, List.flatMap_singleton]
    sizes := by
      intro s hs
      rw [hsame] at hs
      rcases List.mem_append.mp hs with hs | hs
      · exact h.sizes s hs
      · rwa [List.mem_singleton.mp hs] }

/-! ## One chunk -/

/-- `SaveChunk` puts the chunk behind what the container being filled holds, or,
when that has no room, hands it over and begins the next one. -/
theorem packChunk_cases (p : Params) {cipher : Bytes} {u : Upload}
    (hcipher : cipher.length ≤ maxChunkSize) :
    ∃ full base, (packChunk p cipher u).2.disk.written = u.disk.written ++ full ∧
      (packChunk p cipher u).2.client.pending =
        { base with body := base.body ++ (packChunk p cipher u).1.record } ∧
      (packChunk p cipher u).1.addr.containerName = base.containerID ∧
      (packChunk p cipher u).1.addr.offset.toNat = base.body.length ∧
      (packChunk p cipher u).1.addr.length.toNat = cipher.length ∧
      cryptoBlockSize + cipher.length + base.body.length < maxContainerSize ∧
      ((full = [] ∧ base = u.client.pending) ∨
        (full = [u.client.pending] ∧
          base = { containerID := p.uuid u.disk.draws, body := [] })) := by
  have hsmall : (UInt32.ofNat cipher.length).toNat = cipher.length := by
    rw [UInt32.toNat_ofNat']
    unfold maxChunkSize at hcipher
    omega
  by_cases hfit : cryptoBlockSize + cipher.length + u.client.inContainer.length < maxContainerSize
  · refine ⟨[], u.client.pending, ?_, ?_, ?_, ?_, ?_, hfit, .inl ⟨rfl, rfl⟩⟩
    all_goals simp only [packChunk, saveChunk, hfit, if_true, Client.pending, PackedChunk.record,
      List.append_nil, hsmall]
    · rw [UInt32.toNat_ofNat']
      unfold maxContainerSize at hfit
      omega
  · refine ⟨[u.client.pending], { containerID := p.uuid u.disk.draws, body := [] },
      ?_, ?_, ?_, ?_, ?_, ?_, .inr ⟨rfl, rfl⟩⟩
    all_goals simp only [packChunk, saveChunk, hfit, if_false, Client.pending, PackedChunk.record,
      ocallWriteContainer, List.nil_append, List.length_nil, UInt32.toNat_zero, hsmall]
    unfold maxChunkSize at hcipher
    unfold maxContainerSize cryptoBlockSize
    omega

/-- The part of the storing step that concerns names. -/
theorem packChunk_storeStep (p : Params) {cipher : Bytes} {u : Upload}
    (hcipher : cipher.length ≤ maxChunkSize)
    (hroom : u.client.inContainer.length < maxContainerSize) :
    StoreStep p u (packChunk p cipher u).2 := by
  have hiv : StoreStep p u { u with client := { u.client with iv := pickNewIV u.client.iv } } :=
    .of_same hroom rfl rfl rfl
  refine hiv.trans (saveChunk_storeStep p ?_)
  unfold maxChunkSize at hcipher
  unfold maxContainerSize cryptoBlockSize
  omega

/-- Between two chunks: every container that was handed over since `u₀`, and the
one being filled, holds exactly its own chunks, and no chunk is elsewhere. -/
structure Packing (p : Params) (u₀ : Upload) (done : List PackedChunk) (u : Upload) : Prop where
  named : Named p u.names u.disk.draws
  body : u.client.curContainer.body = []
  holds : ∃ full, u.disk.written = u₀.disk.written ++ full ∧
    (∀ c ∈ full ++ [u.client.pending], FilledBy done c) ∧
    ∀ r ∈ done, r.addr.containerName ∈ (full ++ [u.client.pending]).map Container.containerID

theorem Packing.room {p : Params} {u₀ u : Upload} {done : List PackedChunk}
    (h : Packing p u₀ done u) : u.client.inContainer.length < maxContainerSize := by
  obtain ⟨full, -, hholds, -⟩ := h.holds
  exact (hholds u.client.pending (by simp)).room

/-- The names of the containers that a run handed over and of the one being
filled. -/
theorem names_eq {u : Upload} {old full : List Container} (h : u.disk.written = old ++ full) :
    u.names = old.map Container.containerID ++
      (full ++ [u.client.pending]).map Container.containerID := by
  simp [Upload.names, h, Client.pending]

/-- **One chunk.**  Packing goes on in the same way, as long as the names are
different. -/
theorem Packing.chunk {p : Params} {u₀ u : Upload} {done : List PackedChunk}
    (h : Packing p u₀ done u) {cipher : Bytes} (hcipher : cipher.length ≤ maxChunkSize)
    (hfresh : FreshNames p (packChunk p cipher u).2.disk.draws) :
    Packing p u₀ (done ++ [(packChunk p cipher u).1]) (packChunk p cipher u).2 := by
  have hstep := packChunk_storeStep p hcipher h.room
  obtain ⟨k, hdraws, hnames⟩ := hstep.names
  have hnamed : Named p (packChunk p cipher u).2.names (packChunk p cipher u).2.disk.draws := by
    rw [hdraws, hnames]
    exact h.named.extend k
  obtain ⟨full, hwritten, hholds, hcover⟩ := h.holds
  obtain ⟨more, base, hmore, hpending, hname, hoffset, hsize, hfit, hcase⟩ :=
    packChunk_cases p (u := u) hcipher
  -- all containers written so far, and the one that receives the chunk, have different names
  have hwritten' : (packChunk p cipher u).2.disk.written =
      u₀.disk.written ++ (full ++ more) := by
    rw [hmore, hwritten, List.append_assoc]
  have hnd := hnamed.nodup hfresh
  rw [names_eq hwritten', hpending] at hnd
  have hdistinct : ∀ c ∈ full ++ more, c.containerID ≠ base.containerID := by
    intro c hc heq
    rw [List.nodup_append, List.map_append, List.nodup_append] at hnd
    exact hnd.2.1.2.2 c.containerID (List.mem_map_of_mem hc) base.containerID (by simp) heq
  have hbase : FilledBy done base ∧ (∀ c ∈ full ++ more, FilledBy done c) ∧
      ∀ r ∈ done, r.addr.containerName ∈ (full ++ more ++ [base]).map Container.containerID := by
    rcases hcase with ⟨rfl, rfl⟩ | ⟨rfl, rfl⟩
    · refine ⟨hholds _ (by simp), fun c hc => hholds c ?_, by simpa using hcover⟩
      simp only [List.append_nil] at hc
      exact List.mem_append_left _ hc
    · refine ⟨filledBy_nil fun r hr heq => ?_, hholds, fun r hr => ?_⟩
      · obtain ⟨c, hc, hid⟩ := List.mem_map.mp (hcover r hr)
        exact hdistinct c hc (hid.trans heq)
      · rw [List.map_append]
        exact List.mem_append_left _ (hcover r hr)
  obtain ⟨hbase, hfull, hcover⟩ := hbase
  refine ⟨hnamed, hstep.body h.body, full ++ more, hwritten', ?_, ?_⟩
  · intro c hc
    rw [hpending] at hc
    rcases List.mem_append.mp hc with hc | hc
    · exact (hfull c hc).other fun heq => hdistinct c hc (heq.symm.trans hname)
    · rw [List.mem_singleton.mp hc]
      exact hbase.snoc hname hoffset hsize hfit
  · intro r hr
    rw [hpending]
    rcases List.mem_append.mp hr with hr | hr
    · simpa using hcover r hr
    · rw [List.mem_singleton.mp hr, hname]
      simp

/-! ## A whole upload -/

theorem packChunks_draws (p : Params) (ciphers : List Bytes) (u : Upload) :
    u.disk.draws ≤ (packChunks p ciphers u).2.disk.draws := by
  induction ciphers generalizing u with
  | nil => exact le_rfl
  | cons cipher rest ih =>
      refine le_trans ?_ (ih (packChunk p cipher u).2)
      unfold packChunk saveChunk
      dsimp only
      split <;> simp [ocallWriteContainer]

/-- **Every chunk in turn.** -/
theorem Packing.chunks {p : Params} {u₀ u : Upload} {done : List PackedChunk}
    (h : Packing p u₀ done u) {ciphers : List Bytes}
    (hciphers : ∀ cipher ∈ ciphers, cipher.length ≤ maxChunkSize)
    (hfresh : FreshNames p (packChunks p ciphers u).2.disk.draws) :
    Packing p u₀ (done ++ (packChunks p ciphers u).1) (packChunks p ciphers u).2 := by
  induction ciphers generalizing u done with
  | nil => simpa [packChunks] using h
  | cons cipher rest ih =>
      obtain ⟨hcipher, hrest⟩ := List.forall_mem_cons.mp hciphers
      have hle := packChunks_draws p rest (packChunk p cipher u).2
      have hone := h.chunk hcipher fun i hi j hj =>
        hfresh i (hi.trans_le hle) j (hj.trans_le hle)
      have hall := ih hone hrest hfresh
      rwa [List.append_assoc] at hall

theorem packChunk_iv (p : Params) (cipher : Bytes) (u : Upload) :
    (packChunk p cipher u).1.iv = pickNewIV u.client.iv ∧
    (packChunk p cipher u).2.client.iv = pickNewIV u.client.iv := by
  refine ⟨rfl, ?_⟩
  unfold packChunk saveChunk
  dsimp only
  split <;> rfl

/-- The chunks come out in order, each with the next IV. -/
theorem packChunks_ivs (p : Params) (ciphers : List Bytes) (u : Upload) :
    (packChunks p ciphers u).1.map PackedChunk.cipher = ciphers ∧
    (packChunks p ciphers u).1.map PackedChunk.iv =
      (List.range ciphers.length).map fun i => pickNewIV^[i + 1] u.client.iv := by
  induction ciphers generalizing u with
  | nil => exact ⟨rfl, rfl⟩
  | cons cipher rest ih =>
      obtain ⟨hciphers, hivs⟩ := ih (packChunk p cipher u).2
      obtain ⟨hfirst, hnext⟩ := packChunk_iv p cipher u
      rw [hnext] at hivs
      constructor
      · rw [packChunks, List.map_cons, hciphers]
        rfl
      · rw [packChunks, List.map_cons, hivs, hfirst, List.length_cons, List.range_succ_eq_map,
          List.map_cons, List.map_map]
        rfl

/-- The container that a run leaves behind, if there is anything in it. -/
def lastContainers (u : Upload) : List Container :=
  if u.client.inContainer = [] then [] else [u.client.pending]

/-- The end of the recipe and of the receive loop hand over the last container. -/
theorem packUpload_written {p : Params} {ciphers : List Bytes} {u : Upload}
    (hbody : (packChunks p ciphers u).2.client.curContainer.body = []) :
    (packUpload p ciphers u).2.disk.written = (packChunks p ciphers u).2.disk.written ++
      lastContainers (packChunks p ciphers u).2 := by
  unfold packUpload processTailBatch processLastContainer
  by_cases hnil : (packChunks p ciphers u).2.client.inContainer = [] <;>
    by_cases hrec : (packChunks p ciphers u).2.client.inRecipe = [] <;>
    simp [hnil, hrec, hbody, flushRecipe, ocallWriteContainer, Client.pending, lastContainers]

theorem packUpload_draws (p : Params) (ciphers : List Bytes) (u : Upload) :
    (packChunks p ciphers u).2.disk.draws ≤ (packUpload p ciphers u).2.disk.draws := by
  unfold packUpload processLastContainer
  dsimp only
  split
  · simp [ocallWriteContainer, processTailBatch]
  · simp [processTailBatch]

/-- A client that has stored nothing yet. -/
theorem packing_nil {p : Params} {u : Upload} (hin : u.client.inContainer = [])
    (hbody : u.client.curContainer.body = []) (hnamed : Named p u.names u.disk.draws) :
    Packing p u [] u := by
  refine ⟨hnamed, hbody, [], by simp, ?_, by simp⟩
  intro c hc
  rw [List.nil_append, List.mem_singleton] at hc
  rw [hc, Client.pending, hin]
  exact filledBy_nil (by simp)

/-- Under different names, a container is the only one with its name. -/
theorem filter_name_eq {cs : List Container} {c : Container}
    (hnd : (cs.map Container.containerID).Nodup) (hc : c ∈ cs) :
    (cs.filter fun c' => c'.containerID = c.containerID) = [c] := by
  obtain ⟨before, after, rfl⟩ := List.append_of_mem hc
  rw [List.map_append, List.map_cons, List.nodup_append, List.nodup_cons] at hnd
  obtain ⟨-, ⟨hafter, -⟩, hbefore⟩ := hnd
  rw [List.filter_append, List.filter_cons_of_pos (by simp)]
  have hnone : (before.filter fun c' => c'.containerID = c.containerID) = [] := by
    rw [List.filter_eq_nil_iff]
    intro c' hc'
    simpa using hbefore _ (List.mem_map_of_mem hc') _ List.mem_cons_self
  have hnone' : (after.filter fun c' => c'.containerID = c.containerID) = [] := by
    rw [List.filter_eq_nil_iff]
    intro c' hc' heq
    exact hafter (List.mem_map.mpr ⟨c', hc', by simpa using heq⟩)
  rw [hnone, hnone', List.nil_append]

theorem lastContainers_sublist (u : Upload) :
    (lastContainers u).Sublist [u.client.pending] := by
  rw [lastContainers]
  split
  · exact List.nil_sublist _
  · exact List.Sublist.refl _

theorem mem_lastContainers {u : Upload} (h : u.client.inContainer ≠ []) :
    u.client.pending ∈ lastContainers u := by
  rw [lastContainers, if_neg h]
  exact List.mem_singleton_self _

/-- A container with a chunk in it is not empty: every chunk ends with its IV. -/
theorem FilledBy.ne_nil {done : List PackedChunk} {c : Container} (h : FilledBy done c)
    {r : PackedChunk} (hr : r ∈ done) (hname : r.addr.containerName = c.containerID) :
    c.body ≠ [] := by
  intro hnil
  have hstop := (h.tiles.bounds (mem_chunksOf.mpr ⟨hr, hname⟩)).2
  rw [hnil, List.length_nil] at hstop
  unfold PackedChunk.stop cryptoBlockSize at hstop
  omega

/-- **Containers are packed without gaps.**  Of the containers that an upload
wrote, each is filled below its capacity by the chunks whose addresses name it,
one range behind the other from the first byte to `currentSize`; and every chunk
has one container, where its address selects its ciphertext and the IV in force
when it was encrypted. -/
theorem container_packing {p : Params} {ciphers : List Bytes} {u : Upload}
    (hin : u.client.inContainer = []) (hbody : u.client.curContainer.body = [])
    (hciphers : ∀ cipher ∈ ciphers, cipher.length ≤ maxChunkSize)
    (hnamed : Named p u.names u.disk.draws)
    (hfresh : FreshNames p (packUpload p ciphers u).2.disk.draws) :
    (packUpload p ciphers u).1.map PackedChunk.cipher = ciphers ∧
    (packUpload p ciphers u).1.map PackedChunk.iv =
      (List.range ciphers.length).map (fun i => pickNewIV^[i + 1] u.client.iv) ∧
    ∃ full, (packUpload p ciphers u).2.disk.written = u.disk.written ++ full ∧
      (∀ c ∈ full, FilledBy (packUpload p ciphers u).1 c ∧
        (chunksOf c.containerID (packUpload p ciphers u).1).Pairwise
          fun r s => r.stop ≤ s.addr.offset.toNat) ∧
      ∀ r ∈ (packUpload p ciphers u).1, ∃ c ∈ full,
        ((packUpload p ciphers u).2.disk.written.filter fun c' =>
          c'.containerID = r.addr.containerName) = [c] ∧
        r.addr.length.toNat = r.cipher.length ∧
        slice c.body r.addr = r.cipher ++ r.iv.toBytes := by
  have hle := packUpload_draws p ciphers u
  have hpacked := (packing_nil hin hbody hnamed).chunks hciphers fun i hi j hj =>
    hfresh i (hi.trans_le hle) j (hj.trans_le hle)
  rw [List.nil_append] at hpacked
  obtain ⟨hcs, hivs⟩ := packChunks_ivs p ciphers u
  refine ⟨hcs, hivs, ?_⟩
  -- only an empty last container stays behind, and no chunk is in it
  obtain ⟨full, hwritten, hholds, hcover⟩ := hpacked.holds
  have hlast := lastContainers_sublist (packChunks p ciphers u).2
  have hfinal : (packUpload p ciphers u).2.disk.written =
      u.disk.written ++ (full ++ lastContainers (packChunks p ciphers u).2) := by
    rw [packUpload_written hpacked.body, hwritten, List.append_assoc]
  have hall : ∀ c ∈ full ++ lastContainers (packChunks p ciphers u).2,
      FilledBy (packUpload p ciphers u).1 c :=
    fun c hc => hholds c ((hlast.append_left full).subset hc)
  have hnd : ((packUpload p ciphers u).2.disk.written.map Container.containerID).Nodup := by
    refine List.Nodup.sublist ?_ (hpacked.named.nodup fun i hi j hj =>
      hfresh i (hi.trans_le hle) j (hj.trans_le hle))
    rw [names_eq hwritten, hfinal, List.map_append]
    exact ((hlast.append_left full).map _).append_left _
  refine ⟨_, hfinal, fun c hc => ⟨hall c hc, (hall c hc).tiles.pairwise⟩, ?_⟩
  intro r hr
  obtain ⟨c, hc, hname⟩ := List.mem_map.mp (hcover r hr)
  have hmem : c ∈ full ++ lastContainers (packChunks p ciphers u).2 := by
    rcases List.mem_append.mp hc with hc | hc
    · exact List.mem_append_left _ hc
    · rw [List.mem_singleton.mp hc] at hname ⊢
      refine List.mem_append_right _ (mem_lastContainers ?_)
      exact (hholds _ (List.mem_append_right _ (List.mem_singleton_self _))).ne_nil hr hname.symm
  refine ⟨c, hmem, ?_, (hall c hmem).sizes r (mem_chunksOf.mpr ⟨hr, hname.symm⟩),
    (hall c hmem).slice hr hname.symm⟩
  rw [← hname]
  exact filter_name_eq hnd (hfinal ▸ List.mem_append_right _ hmem)

/-- Two chunks in the small configuration. -/
theorem container_packing_small :
    let r := packUpload smallParams [[1, 2, 3], [4]] smallUpload
    r.1.map PackedChunk.cipher = [[1, 2, 3], [4]] ∧
    ∃ full, r.2.disk.written = smallUpload.disk.written ++ full ∧
      ∀ s ∈ r.1, ∃ c ∈ full, slice c.body s.addr = s.cipher ++ s.iv.toBytes := by
  have hdraws : (packUpload smallParams [[1, 2, 3], [4]] smallUpload).2.disk.draws ≤ 2 ^ 64 := by
    decide
  have hfit : ∀ c ∈ ([[1, 2, 3], [4]] : List Bytes), c.length ≤ maxChunkSize := by
    decide
  obtain ⟨hciphers, -, full, hwritten, -, hchunks⟩ := container_packing (p := smallParams)
    (u := smallUpload) rfl rfl hfit
    ⟨[0], rfl, List.pairwise_singleton _ _, by decide⟩ (freshNames_small hdraws)
  refine ⟨hciphers, full, hwritten, fun s hs => ?_⟩
  obtain ⟨c, hc, -, -, hslice⟩ := hchunks s hs
  exact ⟨c, hc, hslice⟩

end Debe
