import Debe.Codec
import Debe.Lib.Cuts
import Debe.Recipe

/-!
# The restore decoder

A restore turns recipe entries into messages of recovered chunks.  Entries are
collected with the slot of their container in the current request; when sixteen
containers have been named the request is fetched, every collected entry is
recovered into the send buffer, and the buffer is sent whenever its record count
is a multiple of the batch size.  The map from names to slots lives for one call
only, while the request, the collected entries and the half-filled buffer live
on, so a container named in two recipe batches may take two slots.

The Prototype and the Baseline run the same loops.  They differ in how a chunk
is recovered, in whether the payload is encrypted, and in the tail: the Baseline
has no branch for a tail without collected entries.

`GetReqContainers` is a parameter: `fetch` gives the contents of a container, and
the containers of a request are fetched in the order of its slots.
-/

namespace Debe

open Records

/-- `EnclaveRecipeEntry_t`: an address whose container is given by its slot. -/
structure EnclaveRecipeEntry where
  containerID : Nat
  offset : UInt32
  length : UInt32
  deriving DecidableEq, Repr

/-- A restore message: the header fields and the first `dataSize` bytes. -/
structure RestoreMsg where
  messageType : MessageType
  currentItemNum : Nat
  data : Bytes
  deriving DecidableEq, Repr

/-- What the decoder keeps between calls.  `idBuffer` holds the first `idNum`
names of the request; `sent` is the history of messages. -/
structure Restore where
  idBuffer : List ContainerID
  enclaveRecipeBuffer : List EnclaveRecipeEntry
  restoreChunkBuf : RestoreBuf
  sent : List RestoreMsg
  deriving DecidableEq, Repr

/-- `InitRestoreBuffer`. -/
def Restore.init : Restore where
  idBuffer := []
  enclaveRecipeBuffer := []
  restoreChunkBuf := ⟨0, []⟩
  sent := []

/-- What differs between the two decoders' loops: how a chunk is recovered and
how a payload leaves.  `chunk` is the chunk that gets appended and `unwrap` what
the receiver makes of a payload. -/
structure RestoreCodec where
  recoverOneChunk : Bytes → Nat → RestoreBuf → RestoreBuf
  wrap : Bytes → Bytes
  chunk : Bytes → Nat → Bytes
  unwrap : Bytes → Bytes
  recoverOneChunk_eq : ∀ bs n buf, recoverOneChunk bs n buf = buf.append (chunk bs n)
  length_chunk : ∀ bs n, n < 2 ^ 32 → (chunk bs n).length < 2 ^ 32
  unwrap_wrap : ∀ bs, unwrap (wrap bs) = bs

/-- `tmpContainerMap`. -/
abbrev SlotMap := AList (fun _ : ContainerID => Nat)

section Loops

variable (d : RestoreCodec) (n : Nat) (fetch : ContainerID → Bytes)

/-- Send the buffer under the given type and start it anew. -/
def Restore.send (s : Restore) (messageType : MessageType) : Restore :=
  { s with
    sent := s.sent ++ [{ messageType := messageType
                         currentItemNum := s.restoreChunkBuf.currentItemNum
                         data := d.wrap s.restoreChunkBuf.dataBuffer }]
    restoreChunkBuf := ⟨0, []⟩ }

/-- Recover the chunk of one collected entry. -/
def recoverEntry (containerArray : List Bytes) (s : Restore) (e : EnclaveRecipeEntry) :
    Except Fault Restore := do
  let container ← inRange containerArray[e.containerID]?
  return { s with restoreChunkBuf :=
    d.recoverOneChunk (container.drop e.offset.toNat) e.length.toNat s.restoreChunkBuf }

/-- The loop body over the collected entries of a full request. -/
def drainStep (containerArray : List Bytes) (s : Restore) (e : EnclaveRecipeEntry) :
    Except Fault Restore := do
  let s ← recoverEntry d containerArray s e
  return if s.restoreChunkBuf.currentItemNum % n = 0 then s.send d .serverRestoreChunk else s

/-- Parse one recipe entry: find or take the slot of its container and collect it. -/
def addEntry (s : Restore) (tmpContainerMap : SlotMap) (e : RecipeEntry) : Restore × SlotMap :=
  match tmpContainerMap.lookup e.containerName with
  | none =>
      ({ s with
          idBuffer := s.idBuffer ++ [e.containerName]
          enclaveRecipeBuffer := s.enclaveRecipeBuffer ++
            [⟨s.idBuffer.length, e.offset, e.length⟩] },
        tmpContainerMap.insert e.containerName s.idBuffer.length)
  | some slot =>
      ({ s with enclaveRecipeBuffer := s.enclaveRecipeBuffer ++ [⟨slot, e.offset, e.length⟩] },
        tmpContainerMap)

/-- The loop body over the entries of a recipe batch. -/
def batchStep (st : Restore × SlotMap) (e : RecipeEntry) : Except Fault (Restore × SlotMap) := do
  let st := addEntry st.1 st.2 e
  if st.1.idBuffer.length = containerCappingValue then
    let s ← st.1.enclaveRecipeBuffer.foldlM (drainStep d n (st.1.idBuffer.map fetch)) st.1
    return ({ s with idBuffer := [], enclaveRecipeBuffer := [] }, ∅)
  else return st

/-- The loop over the entries of a recipe batch, with a map of its own. -/
def batchLoop (s : Restore) (entries : List RecipeEntry) : Except Fault (Restore × SlotMap) :=
  entries.foldlM (batchStep d n fetch) (s, ∅)

/-- The tail's loop body; the counter is `remainChunkNum`. -/
def tailStep (containerArray : List Bytes) (st : Restore × Nat) (e : EnclaveRecipeEntry) :
    Except Fault (Restore × Nat) := do
  let s ← recoverEntry d containerArray st.1 e
  let remainChunkNum := st.2 - 1
  return (
    if s.restoreChunkBuf.currentItemNum % n = 0 ∨ remainChunkNum = 0 then
      s.send d (if remainChunkNum = 0 then .serverRestoreFinal else .serverRestoreChunk)
    else s, remainChunkNum)

/-- The tail with collected entries. -/
def tailLoop (s : Restore) : Except Fault Restore := do
  let r ← s.enclaveRecipeBuffer.foldlM (tailStep d n (s.idBuffer.map fetch))
    (s, s.enclaveRecipeBuffer.length)
  return r.1

end Loops

/-- `EcallRecvDecoder`'s codec: chunks are decrypted, payloads encrypted under the
session key. -/
def enclaveCodec (p : Params) (sessionKey : Bytes) : RestoreCodec where
  recoverOneChunk := recoverOneChunk p
  wrap := p.crypto.sessionKeyEnc sessionKey
  chunk bs n := decompressOrKeep (p.crypto.decryptionWithKeyIV p.enclaveKey
    ((bs.drop n).take cryptoBlockSize) (bs.take n))
  unwrap := p.crypto.sessionKeyDec sessionKey
  recoverOneChunk_eq _ _ _ := rfl
  length_chunk bs n hn := by
    apply length_decompressOrKeep
    rw [p.crypto.length_decryptionWithKeyIV]
    exact lt_of_le_of_lt (List.length_take_le _ _) hn
  unwrap_wrap := p.crypto.sessionKeyDec_sessionKeyEnc sessionKey

/-- `EcallRecvDecoder::ProcRecipeBatch`. -/
def procRecipeBatch (p : Params) (fetch : ContainerID → Bytes) (sessionKey masterKey : Bytes)
    (recipeBuffer : Bytes) (recipeNum : Nat) (s : Restore) : Except Fault Restore := do
  let plain := p.crypto.decryptWithKey masterKey
    (recipeBuffer.take (recipeNum * recipeEntrySize))
  let r ← batchLoop (enclaveCodec p sessionKey) p.sendChunkBatchSize fetch s
    (entriesOfBytes recipeNum plain)
  return r.1

/-- `EcallRecvDecoder::ProcRecipeTailBatch`. -/
def procRecipeTailBatch (p : Params) (fetch : ContainerID → Bytes) (sessionKey : Bytes)
    (s : Restore) : Except Fault Restore :=
  if s.enclaveRecipeBuffer ≠ [] then
    tailLoop (enclaveCodec p sessionKey) p.sendChunkBatchSize fetch s
  else return s.send (enclaveCodec p sessionKey) .serverRestoreFinal

/-- The loop of `EnclaveRecvDecoder::Run` over what it read from the recipe file,
and the tail. -/
def restoreRun (p : Params) (fetch : ContainerID → Bytes) (sessionKey masterKey : Bytes)
    (reads : List Bytes) : Except Fault Restore := do
  let s ← reads.foldlM (fun s recipeBuffer => procRecipeBatch p fetch sessionKey masterKey
    recipeBuffer (recipeBuffer.length / recipeEntrySize) s) Restore.init
  procRecipeTailBatch p fetch sessionKey s

/-! ## The stream of messages -/

/-- The message that carries the chunks `cs`. -/
def msgOf (d : RestoreCodec) (messageType : MessageType) (cs : List Bytes) : RestoreMsg where
  messageType := messageType
  currentItemNum := cs.length
  data := d.wrap (frames cs)

/-- The chunk of a recipe entry. -/
def recovered (d : RestoreCodec) (fetch : ContainerID → Bytes) (e : RecipeEntry) : Bytes :=
  d.chunk ((fetch e.containerName).drop e.offset.toNat) e.length.toNat

/-- In mid-stream: messages of exactly `n` chunks have been sent and fewer than
`n` wait in the buffer, together `chunks`. -/
def Streaming (d : RestoreCodec) (n : Nat) (s : Restore) (chunks : List Bytes) : Prop :=
  ∃ (gs : List (List Bytes)) (rest : List Bytes),
    (∀ g ∈ gs, g.length = n) ∧ s.sent = gs.map (msgOf d .serverRestoreChunk) ∧
    s.restoreChunkBuf = ⟨rest.length, frames rest⟩ ∧ rest.length < n ∧
    gs.flatten ++ rest = chunks

/-- A finished stream: one final message with `last` after the full ones. -/
structure Finished (d : RestoreCodec) (n : Nat) (s : Restore) (gs : List (List Bytes))
    (last : List Bytes) : Prop where
  full : ∀ g ∈ gs, g.length = n
  last_le : last.length ≤ n
  sent : s.sent = gs.map (msgOf d .serverRestoreChunk) ++ [msgOf d .serverRestoreFinal last]

/-- The collected entry `b` stands for the recipe entry `e` in a request for `ids`. -/
def Slotted (ids : List ContainerID) (b : EnclaveRecipeEntry) (e : RecipeEntry) : Prop :=
  ids[b.containerID]? = some e.containerName ∧ b.offset = e.offset ∧ b.length = e.length

section Stream

variable {d : RestoreCodec} {n : Nat} {fetch : ContainerID → Bytes}

theorem Streaming.congr {s s' : Restore} {chunks : List Bytes} (h : Streaming d n s chunks)
    (hsent : s'.sent = s.sent) (hbuf : s'.restoreChunkBuf = s.restoreChunkBuf) :
    Streaming d n s' chunks := by
  unfold Streaming
  rw [hsent, hbuf]
  exact h

theorem append_frames (rest : List Bytes) (c : Bytes) :
    RestoreBuf.append ⟨rest.length, frames rest⟩ c =
      ⟨(rest ++ [c]).length, frames (rest ++ [c])⟩ := by
  simp [RestoreBuf.append]

/-- A slotted entry is recovered from the container its recipe entry names. -/
theorem recoverEntry_slotted {ids : List ContainerID} {b : EnclaveRecipeEntry} {e : RecipeEntry}
    (h : Slotted ids b e) (s : Restore) :
    recoverEntry d (ids.map fetch) s b =
      .ok { s with restoreChunkBuf := s.restoreChunkBuf.append (recovered d fetch e) } := by
  obtain ⟨hid, hoff, hlen⟩ := h
  have hget : (ids.map fetch)[b.containerID]? = some (fetch e.containerName) := by
    rw [List.getElem?_map, hid, Option.map_some]
  simp only [recoverEntry, hget, inRange, bind, Except.bind, pure, Except.pure, hoff, hlen,
    d.recoverOneChunk_eq, recovered]

/-- Sending a buffer that holds `cs`. -/
theorem send_sent {s : Restore} {cs : List Bytes} (messageType : MessageType)
    (hbuf : s.restoreChunkBuf = ⟨cs.length, frames cs⟩) :
    (s.send d messageType).sent = s.sent ++ [msgOf d messageType cs] := by
  simp [Restore.send, msgOf, hbuf]

/-- The buffer with one more chunk, before it is sent. -/
theorem Streaming.waiting {s : Restore} {chunks : List Bytes} (h : Streaming d n s chunks)
    (c : Bytes) :
    ∃ (gs : List (List Bytes)) (rest : List Bytes),
      (∀ g ∈ gs, g.length = n) ∧ s.sent = gs.map (msgOf d .serverRestoreChunk) ∧
      s.restoreChunkBuf.append c = ⟨(rest ++ [c]).length, frames (rest ++ [c])⟩ ∧
      (rest ++ [c]).length ≤ n ∧ gs.flatten ++ (rest ++ [c]) = chunks ++ [c] := by
  obtain ⟨gs, rest, hfull, hsent, hbuf, hlt, hchunks⟩ := h
  refine ⟨gs, rest, hfull, hsent, by rw [hbuf, append_frames], ?_, ?_⟩
  · rw [List.length_append, List.length_singleton]
    exact hlt
  · rw [← List.append_assoc, hchunks]

/-- One collected entry moves the stream on by its chunk. -/
theorem Streaming.drainStep {s : Restore} {chunks : List Bytes} (h : Streaming d n s chunks)
    (fetch : ContainerID → Bytes) {ids : List ContainerID} {b : EnclaveRecipeEntry}
    {e : RecipeEntry} (hb : Slotted ids b e) :
    ∃ s', Debe.drainStep d n (ids.map fetch) s b = .ok s' ∧
      Streaming d n s' (chunks ++ [recovered d fetch e]) := by
  let c := recovered d fetch e
  let s₁ : Restore := { s with restoreChunkBuf := s.restoreChunkBuf.append c }
  obtain ⟨gs, rest, hfull, hsent, hbuf, hle, hchunks⟩ := h.waiting c
  have hbuf₁ : s₁.restoreChunkBuf = ⟨(rest ++ [c]).length, frames (rest ++ [c])⟩ := hbuf
  have hrun : Debe.drainStep d n (ids.map fetch) s b =
      .ok (if (rest ++ [c]).length % n = 0 then s₁.send d .serverRestoreChunk else s₁) := by
    have hnum : s₁.restoreChunkBuf.currentItemNum = (rest ++ [c]).length := by rw [hbuf₁]
    rw [← hnum]
    simp only [Debe.drainStep, recoverEntry_slotted hb, bind, Except.bind, pure, Except.pure]
    rfl
  refine ⟨_, hrun, ?_⟩
  split
  · rename_i hmod
    -- the count is a positive multiple of `n` and at most `n`
    have hlen : (rest ++ [c]).length = n :=
      le_antisymm hle (Nat.le_of_dvd (by simp) (Nat.dvd_of_mod_eq_zero hmod))
    have hn : 0 < n := hlen ▸ List.length_pos_iff.mpr (List.concat_ne_nil c rest)
    refine ⟨gs ++ [rest ++ [c]], [], ?_, ?_, rfl, hn, ?_⟩
    · intro g hg
      rcases List.mem_append.mp hg with hg | hg
      · exact hfull g hg
      · rw [List.mem_singleton.mp hg, hlen]
    · rw [send_sent _ hbuf₁]
      simp [s₁, hsent]
    · rw [List.flatten_concat, List.append_nil, hchunks]
  · rename_i hmod
    refine ⟨gs, rest ++ [c], hfull, hsent, hbuf₁, ?_, hchunks⟩
    apply lt_of_le_of_ne hle
    intro heq
    rw [heq, Nat.mod_self] at hmod
    exact hmod rfl

/-- A drained request moves the stream on by all its chunks, in order. -/
theorem Streaming.drain {s : Restore} {chunks : List Bytes} (h : Streaming d n s chunks)
    (fetch : ContainerID → Bytes) {ids : List ContainerID} {bs : List EnclaveRecipeEntry}
    {es : List RecipeEntry}
    (hbs : List.Forall₂ (Slotted ids) bs es) :
    ∃ s', bs.foldlM (Debe.drainStep d n (ids.map fetch)) s = .ok s' ∧
      Streaming d n s' (chunks ++ es.map (recovered d fetch)) := by
  induction hbs generalizing s chunks with
  | nil => exact ⟨s, rfl, by simpa using h⟩
  | cons hb _ ih =>
      obtain ⟨s₁, hrun, h₁⟩ := h.drainStep fetch hb
      obtain ⟨s₂, hrest, h₂⟩ := ih h₁
      exact ⟨s₂, by rw [Loops.foldlM_cons_ok hrun, hrest], by simpa using h₂⟩

/-- Before the last entry the tail does what a full request does. -/
theorem tailStep_of_more (containerArray : List Bytes) (s : Restore) (k : Nat)
    (b : EnclaveRecipeEntry) :
    tailStep d n containerArray (s, k + 2) b =
      (Debe.drainStep d n containerArray s b).map (fun s' => (s', k + 1)) := by
  unfold tailStep Debe.drainStep
  cases recoverEntry d containerArray s b with
  | error f => rfl
  | ok s₁ => simp [bind, Except.bind, pure, Except.pure, Except.map]

/-- The tail sends everything that is left, the last message as the final one. -/
theorem Streaming.tail {s : Restore} {chunks : List Bytes} (h : Streaming d n s chunks)
    {ids : List ContainerID} {bs : List EnclaveRecipeEntry} {es : List RecipeEntry}
    (hbs : List.Forall₂ (Slotted ids) bs es) (hne : bs ≠ []) :
    ∃ s' gs last, bs.foldlM (tailStep d n (ids.map fetch)) (s, bs.length) = .ok (s', 0) ∧
      Finished d n s' gs last ∧ last ≠ [] ∧
      gs.flatten ++ last = chunks ++ es.map (recovered d fetch) := by
  induction hbs generalizing s chunks with
  | nil => exact absurd rfl hne
  | @cons b e bs es hb hbs ih =>
      cases bs with
      | nil =>
          cases hbs
          let c := recovered d fetch e
          let s₁ : Restore := { s with restoreChunkBuf := s.restoreChunkBuf.append c }
          obtain ⟨gs, rest, hfull, hsent, hbuf, hle, hchunks⟩ := h.waiting c
          have hbuf₁ : s₁.restoreChunkBuf = ⟨(rest ++ [c]).length, frames (rest ++ [c])⟩ := hbuf
          refine ⟨s₁.send d .serverRestoreFinal, gs, rest ++ [c], ?_, ⟨hfull, hle, ?_⟩,
            List.concat_ne_nil c rest, hchunks⟩
          · simp [tailStep, recoverEntry_slotted hb, bind, Except.bind, pure, Except.pure, s₁, c]
          · rw [send_sent _ hbuf₁, ← hsent]
      | cons b' bs =>
          obtain ⟨s₁, hrun, h₁⟩ := h.drainStep fetch hb
          obtain ⟨s₂, gs, last, hrest, h₂, hlast, hchunks⟩ := ih h₁ (by simp)
          refine ⟨s₂, gs, last, ?_, h₂, hlast, by simpa using hchunks⟩
          have hstep : tailStep d n (ids.map fetch) (s, (b :: b' :: bs).length) b =
              .ok (s₁, (b' :: bs).length) := by
            rw [List.length_cons, List.length_cons, tailStep_of_more, hrun]
            rfl
          rw [Loops.foldlM_cons_ok hstep, hrest]

end Stream

/-! ## Requests -/

/-- The recipe entries with the number of the batch they came in. -/
def tagged (batches : List (List RecipeEntry)) : List (Nat × RecipeEntry) :=
  batches.zipIdx.flatMap fun es => es.1.map fun e => (es.2, e)

/-- What takes a slot of a request: a container, once for each batch naming it. -/
def slotKey (t : Nat × RecipeEntry) : Nat × ContainerID :=
  (t.1, t.2.containerName)

theorem tagged_concat (batches : List (List RecipeEntry)) (es : List RecipeEntry) :
    tagged (batches ++ [es]) = tagged batches ++ es.map fun e => (batches.length, e) := by
  simp [tagged, List.zipIdx_append]

theorem map_snd_tagged (batches : List (List RecipeEntry)) :
    (tagged batches).map Prod.snd = batches.flatten := by
  induction batches using List.reverseRecOn with
  | nil => rfl
  | append_singleton batches es ih => simp [tagged_concat, ih, Function.comp_def]

theorem fst_lt_of_mem_tagged {batches : List (List RecipeEntry)} {t : Nat × RecipeEntry}
    (h : t ∈ tagged batches) : t.1 < batches.length := by
  induction batches using List.reverseRecOn with
  | nil => simp [tagged] at h
  | append_singleton batches es ih =>
      rw [tagged_concat] at h
      rw [List.length_append, List.length_singleton]
      rcases List.mem_append.mp h with h | h
      · have := ih h
        omega
      · obtain ⟨e, _, rfl⟩ := List.mem_map.mp h
        exact Nat.lt_succ_self _

/-- What is collected comes from a batch already seen. -/
theorem fst_lt_of_collected {batches : List (List RecipeEntry)}
    {seen rest : List (Nat × RecipeEntry)} (hseen : seen ++ rest = tagged batches) :
    ∀ t ∈ rest, t.1 < batches.length := by
  intro t ht
  apply fst_lt_of_mem_tagged
  rw [← hseen]
  exact List.mem_append_right _ ht

/-- Between two entries: the entries seen so far are the full requests `rs`, whose
chunks are in the stream, and `rest`, which is collected under its slots. -/
structure DecodeInv (d : RestoreCodec) (n : Nat) (fetch : ContainerID → Bytes) (s : Restore)
    (rs : List (List (Nat × RecipeEntry))) (rest : List (Nat × RecipeEntry)) : Prop where
  full : ∀ r ∈ rs, Cuts.Full containerCappingValue (r.map slotKey)
  slots : List.Forall₂ (Slotted s.idBuffer) s.enclaveRecipeBuffer (rest.map Prod.snd)
  idNum : s.idBuffer.length = Cuts.distinct (rest.map slotKey)
  idNum_lt : s.idBuffer.length < containerCappingValue
  stream : Streaming d n s (rs.flatten.map fun t => recovered d fetch t.2)

/-- `tmpContainerMap` in batch `b` knows exactly the containers that this batch has
put into the request, each at its slot. -/
structure MapInv (b : Nat) (tmpContainerMap : SlotMap) (ids : List ContainerID)
    (rest : List (Nat × RecipeEntry)) : Prop where
  slot : ∀ name k, tmpContainerMap.lookup name = some k → ids[k]? = some name
  known : ∀ name, tmpContainerMap.lookup name = none ↔ (b, name) ∉ rest.map slotKey

section Requests

variable {d : RestoreCodec} {n : Nat} {fetch : ContainerID → Bytes}

theorem Slotted.append {ids : List ContainerID} {b : EnclaveRecipeEntry} {e : RecipeEntry}
    (h : Slotted ids b e) (more : List ContainerID) : Slotted (ids ++ more) b e := by
  obtain ⟨hid, hrest⟩ := h
  refine ⟨?_, hrest⟩
  rw [List.getElem?_append_left (List.getElem?_eq_some_iff.mp hid).1]
  exact hid

/-- A map that a new batch starts with. -/
theorem mapInv_empty {b : Nat} {ids : List ContainerID} {rest : List (Nat × RecipeEntry)}
    (h : ∀ t ∈ rest, t.1 < b) : MapInv b ∅ ids rest where
  slot := by simp
  known := by
    intro name
    simp only [AList.lookup_empty, true_iff]
    intro hmem
    obtain ⟨t, ht, heq⟩ := List.mem_map.mp hmem
    have hlt := h t ht
    have hb : t.1 = b := congrArg Prod.fst heq
    omega

/-- **Parsing one entry** keeps every collected entry at its slot, and takes a new
slot exactly when this batch has not named the container in this request. -/
theorem addEntry_spec {s : Restore} {tmpContainerMap : SlotMap}
    {rs : List (List (Nat × RecipeEntry))} {rest : List (Nat × RecipeEntry)} {b : Nat}
    (h : DecodeInv d n fetch s rs rest) (hmap : MapInv b tmpContainerMap s.idBuffer rest)
    (e : RecipeEntry) :
    List.Forall₂ (Slotted (addEntry s tmpContainerMap e).1.idBuffer)
      (addEntry s tmpContainerMap e).1.enclaveRecipeBuffer ((rest ++ [(b, e)]).map Prod.snd) ∧
    (addEntry s tmpContainerMap e).1.idBuffer.length =
      Cuts.distinct ((rest ++ [(b, e)]).map slotKey) ∧
    (addEntry s tmpContainerMap e).1.idBuffer.length ≤ containerCappingValue ∧
    Streaming d n (addEntry s tmpContainerMap e).1
      (rs.flatten.map fun t => recovered d fetch t.2) ∧
    MapInv b (addEntry s tmpContainerMap e).2 (addEntry s tmpContainerMap e).1.idBuffer
      (rest ++ [(b, e)]) := by
  have hlt := h.idNum_lt
  have hkeys : (rest ++ [(b, e)]).map slotKey = rest.map slotKey ++ [(b, e.containerName)] := by
    simp [slotKey]
  rw [List.map_append, List.map_singleton, hkeys]
  cases hl : tmpContainerMap.lookup e.containerName with
  | none =>
      have hnew := (hmap.known _).mp hl
      simp only [addEntry, hl]
      refine ⟨?_, ?_, by simp; omega, h.stream.congr rfl rfl, ?_, ?_⟩
      · refine List.rel_append (h.slots.imp fun b e hb => hb.append _) ?_
        exact List.Forall₂.cons ⟨by simp, rfl, rfl⟩ List.Forall₂.nil
      · rw [List.length_append, List.length_singleton, h.idNum,
          Cuts.distinct_concat_of_not_mem hnew]
      · intro name k hk
        by_cases hname : name = e.containerName
        · subst hname
          rw [AList.lookup_insert] at hk
          cases hk
          simp
        · rw [AList.lookup_insert_ne hname] at hk
          have hget := hmap.slot name k hk
          rw [List.getElem?_append_left (List.getElem?_eq_some_iff.mp hget).1]
          exact hget
      · intro name
        rw [hkeys]
        by_cases hname : name = e.containerName
        · simp [hname]
        · rw [AList.lookup_insert_ne hname, hmap.known name]
          simp [hname]
  | some slot =>
      have hold : (b, e.containerName) ∈ rest.map slotKey := by
        by_contra hnot
        rw [(hmap.known _).mpr hnot] at hl
        cases hl
      simp only [addEntry, hl]
      refine ⟨?_, ?_, hlt.le, h.stream.congr rfl rfl, hmap.slot, ?_⟩
      · refine List.rel_append h.slots ?_
        exact List.Forall₂.cons ⟨hmap.slot _ _ hl, rfl, rfl⟩ List.Forall₂.nil
      · rw [h.idNum, Cuts.distinct_concat_of_mem hold]
      · intro name
        rw [hkeys, hmap.known name]
        by_cases hname : name = e.containerName
        · simp [hname, hold]
        · simp [hname]

/-- **One entry of a batch.** -/
theorem batchStep_spec {s : Restore} {tmpContainerMap : SlotMap}
    {rs : List (List (Nat × RecipeEntry))} {rest : List (Nat × RecipeEntry)} {b : Nat}
    (h : DecodeInv d n fetch s rs rest) (hmap : MapInv b tmpContainerMap s.idBuffer rest)
    (e : RecipeEntry) :
    ∃ s' map' rs' rest', batchStep d n fetch (s, tmpContainerMap) e = .ok (s', map') ∧
      rs'.flatten ++ rest' = (rs.flatten ++ rest) ++ [(b, e)] ∧
      DecodeInv d n fetch s' rs' rest' ∧ MapInv b map' s'.idBuffer rest' := by
  obtain ⟨hslots, hnum, hle, hstream, hmap'⟩ := addEntry_spec h hmap e
  generalize hst : addEntry s tmpContainerMap e = st at hslots hnum hle hstream hmap'
  by_cases hcap : st.1.idBuffer.length = containerCappingValue
  · -- the request is full: it is drained and a new one begins
    obtain ⟨s₁, hrun, hs₁⟩ := hstream.drain fetch hslots
    refine ⟨{ s₁ with idBuffer := [], enclaveRecipeBuffer := [] }, ∅, rs ++ [rest ++ [(b, e)]], [],
      ?_, by simp, ⟨?_, List.Forall₂.nil, rfl, Nat.zero_lt_succ 15, ?_⟩, mapInv_empty (by simp)⟩
    · simp only [batchStep, hst, hcap, if_true, hrun, bind, Except.bind, pure, Except.pure]
    · intro r hr
      rcases List.mem_append.mp hr with hr | hr
      · exact h.full r hr
      · rw [List.mem_singleton.mp hr, List.map_append, List.map_singleton]
        apply Cuts.Full.of_concat
        · rw [← h.idNum]
          exact h.idNum_lt
        · rw [← hcap, hnum, List.map_append, List.map_singleton]
    · have hdrained : Streaming d n s₁
          ((rs ++ [rest ++ [(b, e)]]).flatten.map fun t => recovered d fetch t.2) := by
        simpa [Function.comp_def] using hs₁
      exact hdrained.congr rfl rfl
  · refine ⟨st.1, st.2, rs, rest ++ [(b, e)], ?_, by simp, ⟨h.full, hslots, hnum, ?_, hstream⟩,
      hmap'⟩
    · simp only [batchStep, hst, hcap, if_false, pure, Except.pure]
    · omega

/-- **One recipe batch**, numbered `b`. -/
theorem batchLoop_spec {s : Restore} {rs : List (List (Nat × RecipeEntry))}
    {rest : List (Nat × RecipeEntry)} {b : Nat} (h : DecodeInv d n fetch s rs rest)
    (hb : ∀ t ∈ rest, t.1 < b) (es : List RecipeEntry) :
    ∃ s' map' rs' rest', batchLoop d n fetch s es = .ok (s', map') ∧
      rs'.flatten ++ rest' = (rs.flatten ++ rest) ++ es.map (fun e => (b, e)) ∧
      DecodeInv d n fetch s' rs' rest' ∧ MapInv b map' s'.idBuffer rest' := by
  let P : List RecipeEntry → Restore × SlotMap → Prop := fun pre st =>
    ∃ rs' rest', rs'.flatten ++ rest' = (rs.flatten ++ rest) ++ pre.map (fun e => (b, e)) ∧
      DecodeInv d n fetch st.1 rs' rest' ∧ MapInv b st.2 st.1.idBuffer rest'
  have hstart : P [] (s, ∅) := ⟨rs, rest, by simp, h, mapInv_empty hb⟩
  obtain ⟨⟨s', map'⟩, hrun, rs', rest', hseen, hinv, hmap⟩ :=
    Loops.foldlM_ok (f := batchStep d n fetch) (l := es) hstart (by
      intro pre e _ st _ hst
      obtain ⟨rs₁, rest₁, hseen, hinv, hmap⟩ := hst
      obtain ⟨s', map', rs', rest', hrun, hseen', hinv', hmap'⟩ := batchStep_spec hinv hmap e
      exact ⟨(s', map'), hrun, rs', rest', by simp [hseen', hseen], hinv', hmap'⟩)
  exact ⟨s', map', rs', rest', hrun, hseen, hinv, hmap⟩

end Requests

/-- The recipe batches one after another. -/
def batchesLoop (d : RestoreCodec) (n : Nat) (fetch : ContainerID → Bytes)
    (batches : List (List RecipeEntry)) : Except Fault Restore :=
  batches.foldlM (fun s es => do
    let r ← batchLoop d n fetch s es
    return r.1) Restore.init

/-- The state inside a batch, right after the entry `e` has been collected: `part`
is what the batch held before it. -/
def midBatch (d : RestoreCodec) (n : Nat) (fetch : ContainerID → Bytes)
    (batches : List (List RecipeEntry)) (part : List RecipeEntry) (e : RecipeEntry) :
    Except Fault Restore := do
  let s ← batchesLoop d n fetch batches
  let st ← batchLoop d n fetch s part
  return (addEntry st.1 st.2 e).1

section Runs

variable {d : RestoreCodec} {n : Nat} {fetch : ContainerID → Bytes}

/-- **Any number of batches, split in any way.** -/
theorem batchesLoop_spec (d : RestoreCodec) (fetch : ContainerID → Bytes) (hn : 0 < n)
    (batches : List (List RecipeEntry)) :
    ∃ s rs rest, batchesLoop d n fetch batches = .ok s ∧
      rs.flatten ++ rest = tagged batches ∧ DecodeInv d n fetch s rs rest := by
  let P : List (List RecipeEntry) → Restore → Prop := fun pre s =>
    ∃ rs rest, rs.flatten ++ rest = tagged pre ∧ DecodeInv d n fetch s rs rest
  have hstart : P [] Restore.init :=
    ⟨[], [], rfl, by simp, List.Forall₂.nil, rfl, Nat.zero_lt_succ 15,
      [], [], by simp, rfl, rfl, hn, rfl⟩
  obtain ⟨s, hrun, rs, rest, hseen, hinv⟩ := Loops.foldlM_ok (l := batches)
    (f := fun s es => do
      let r ← batchLoop d n fetch s es
      return r.1) hstart (by
    intro pre es _ s _ hs
    obtain ⟨rs, rest, hseen, hinv⟩ := hs
    obtain ⟨s', map', rs', rest', hrun, hseen', hinv', _⟩ :=
      batchLoop_spec hinv (fst_lt_of_collected hseen) es
    refine ⟨s', ?_, rs', rest', ?_, hinv'⟩
    · simp only [hrun, bind, Except.bind, pure, Except.pure]
    · rw [hseen', hseen, tagged_concat])
  exact ⟨s, rs, rest, hrun, hseen, hinv⟩

/-- Inside a batch the request never names more than sixteen containers, and every
collected entry has the slot of its own container. -/
theorem midBatch_spec (hn : 0 < n) (batches : List (List RecipeEntry)) (part : List RecipeEntry)
    (e : RecipeEntry) :
    ∃ s, midBatch d n fetch batches part e = .ok s ∧
      s.idBuffer.length ≤ containerCappingValue ∧
      ∃ done pending, done ++ pending = batches.flatten ++ part ++ [e] ∧
        List.Forall₂ (Slotted s.idBuffer) s.enclaveRecipeBuffer pending := by
  obtain ⟨s, rs, rest, hrun, hseen, hinv⟩ := batchesLoop_spec d fetch hn batches
  obtain ⟨s₁, map₁, rs₁, rest₁, hrun₁, hseen₁, hinv₁, hmap₁⟩ :=
    batchLoop_spec hinv (fst_lt_of_collected hseen) part
  obtain ⟨hslots, _, hle, _, _⟩ := addEntry_spec hinv₁ hmap₁ e
  refine ⟨(addEntry s₁ map₁ e).1, ?_, hle, rs₁.flatten.map Prod.snd, _, ?_, hslots⟩
  · simp only [midBatch, hrun, hrun₁, bind, Except.bind, pure, Except.pure]
  · rw [← map_snd_tagged, ← hseen, ← List.map_append, ← List.append_assoc, hseen₁]
    simp [Function.comp_def]

/-- The tail without collected entries. -/
theorem Streaming.sendFinal {s : Restore} {chunks : List Bytes} (h : Streaming d n s chunks) :
    ∃ gs last, Finished d n (s.send d .serverRestoreFinal) gs last ∧
      gs.flatten ++ last = chunks := by
  obtain ⟨gs, rest, hfull, hsent, hbuf, hlt, hchunks⟩ := h
  exact ⟨gs, rest, ⟨hfull, hlt.le, by rw [send_sent _ hbuf, hsent]⟩, hchunks⟩

/-- Nothing is collected exactly when every entry belongs to a full request. -/
theorem DecodeInv.collected_nil_iff {s : Restore} {rs : List (List (Nat × RecipeEntry))}
    {rest : List (Nat × RecipeEntry)} (h : DecodeInv d n fetch s rs rest) :
    s.enclaveRecipeBuffer = [] ↔ rest = [] := by
  have hlen := h.slots.length_eq
  rw [List.length_map] at hlen
  rw [← List.length_eq_zero_iff, ← List.length_eq_zero_iff, hlen]

/-- The tail with collected entries. -/
theorem DecodeInv.tailLoop {s : Restore} {rs : List (List (Nat × RecipeEntry))}
    {rest : List (Nat × RecipeEntry)} (h : DecodeInv d n fetch s rs rest)
    (hne : s.enclaveRecipeBuffer ≠ []) :
    ∃ s' gs last, Debe.tailLoop d n fetch s = .ok s' ∧ Finished d n s' gs last ∧ last ≠ [] ∧
      gs.flatten ++ last = (rs.flatten ++ rest).map fun t => recovered d fetch t.2 := by
  obtain ⟨s', gs, last, hrun, hfin, hlast, hchunks⟩ := h.stream.tail h.slots hne
  refine ⟨s', gs, last, ?_, hfin, hlast, by simpa [Function.comp_def] using hchunks⟩
  simp only [Debe.tailLoop, hrun, bind, Except.bind, pure, Except.pure]

end Runs

/-! ## What the client receives -/

/-- The payload of a message is the records of `cs` and nothing else, and its
header counts them; reading that many records gives `cs`. -/
structure Carries (d : RestoreCodec) (m : RestoreMsg) (cs : List Bytes) : Prop where
  records : d.unwrap m.data = frames cs
  count : m.currentItemNum = cs.length
  read : readRecords m.currentItemNum (d.unwrap m.data) = cs

/-- A stream of restore messages for `chunks`: the messages carry them in order,
none holds more than `n`, and the last one, and no other, is the final one. -/
structure RestoreStream (d : RestoreCodec) (n : Nat) (msgs : List RestoreMsg)
    (chunks : List Bytes) : Prop where
  carried : ∃ groups, List.Forall₂ (Carries d) msgs groups ∧ groups.flatten = chunks
  final : ∃ init last, msgs = init ++ [last] ∧ last.messageType = .serverRestoreFinal ∧
    ∀ m ∈ init, m.messageType = .serverRestoreChunk
  bounded : ∀ m ∈ msgs, m.currentItemNum ≤ n

theorem carries_msgOf {d : RestoreCodec} (messageType : MessageType) {cs : List Bytes}
    (h : ∀ c ∈ cs, c.length < 2 ^ 32) : Carries d (msgOf d messageType cs) cs where
  records := d.unwrap_wrap _
  count := rfl
  read := by
    rw [msgOf, d.unwrap_wrap]
    exact readRecords_frames cs h

theorem length_recovered_lt (d : RestoreCodec) (fetch : ContainerID → Bytes) (e : RecipeEntry) :
    (recovered d fetch e).length < 2 ^ 32 :=
  d.length_chunk _ _ e.length.toNat_lt

theorem Finished.restoreStream {d : RestoreCodec} {n : Nat} {s : Restore}
    {gs : List (List Bytes)} {last chunks : List Bytes} (h : Finished d n s gs last)
    (hchunks : gs.flatten ++ last = chunks) (hfit : ∀ c ∈ chunks, c.length < 2 ^ 32) :
    RestoreStream d n s.sent chunks := by
  obtain ⟨hfull, hlast, hsent⟩ := h
  have hgs : List.Forall₂ (Carries d) (gs.map (msgOf d .serverRestoreChunk)) gs := by
    rw [List.forall₂_map_left_iff, List.forall₂_same]
    intro g hg
    apply carries_msgOf
    intro c hc
    apply hfit
    rw [← hchunks]
    exact List.mem_append_left _ (List.mem_flatten.mpr ⟨g, hg, hc⟩)
  have hl : Carries d (msgOf d .serverRestoreFinal last) last := by
    apply carries_msgOf
    intro c hc
    apply hfit
    rw [← hchunks]
    exact List.mem_append_right _ hc
  refine ⟨⟨gs ++ [last], ?_, by simpa using hchunks⟩, ⟨_, _, hsent, rfl, ?_⟩, ?_⟩
  · rw [hsent]
    exact List.rel_append hgs (List.Forall₂.cons hl List.Forall₂.nil)
  · intro m hm
    obtain ⟨g, _, rfl⟩ := List.mem_map.mp hm
    rfl
  · intro m hm
    rw [hsent] at hm
    rcases List.mem_append.mp hm with hm | hm
    · obtain ⟨g, hg, rfl⟩ := List.mem_map.mp hm
      exact (hfull g hg).le
    · rw [List.mem_singleton.mp hm]
      exact hlast

/-! ## The Prototype's restore stream -/

/-- A call of `ProcRecipeBatch` on an encrypted batch. -/
theorem procRecipeBatch_recipePiece (p : Params) (fetch : ContainerID → Bytes)
    (sessionKey masterKey : Bytes) (es : List RecipeEntry) (s : Restore) :
    procRecipeBatch p fetch sessionKey masterKey (recipePiece p masterKey es)
      ((recipePiece p masterKey es).length / recipeEntrySize) s = (do
        let r ← batchLoop (enclaveCodec p sessionKey) p.sendChunkBatchSize fetch s es
        return r.1) := by
  have hnum : (recipePiece p masterKey es).length / recipeEntrySize = es.length := by
    rw [length_recipePiece]
    exact Nat.mul_div_cancel_left _ (by decide)
  have htake : (recipePiece p masterKey es).take (es.length * recipeEntrySize) =
      recipePiece p masterKey es :=
    List.take_of_length_le (by rw [length_recipePiece, Nat.mul_comm])
  have hplain : p.crypto.decryptWithKey masterKey (recipePiece p masterKey es) =
      entriesToBytes es := p.crypto.decryptWithKey_encryptWithKey _ _
  simp only [procRecipeBatch, hnum, htake, hplain, entriesOfBytes_entriesToBytes]

/-- **`ProcRecipeTailBatch`** ends the stream, collected entries or not. -/
theorem procRecipeTailBatch_spec {p : Params} {fetch : ContainerID → Bytes} {sessionKey : Bytes}
    {s : Restore} {rs : List (List (Nat × RecipeEntry))} {rest : List (Nat × RecipeEntry)}
    (h : DecodeInv (enclaveCodec p sessionKey) p.sendChunkBatchSize fetch s rs rest) :
    ∃ s' gs last, procRecipeTailBatch p fetch sessionKey s = .ok s' ∧
      Finished (enclaveCodec p sessionKey) p.sendChunkBatchSize s' gs last ∧
      (rest ≠ [] → last ≠ []) ∧
      gs.flatten ++ last =
        (rs.flatten ++ rest).map fun t => recovered (enclaveCodec p sessionKey) fetch t.2 := by
  unfold procRecipeTailBatch
  by_cases hrest : rest = []
  · rw [if_neg (not_not.mpr (h.collected_nil_iff.mpr hrest)), hrest, List.append_nil]
    obtain ⟨gs, last, hfin, hchunks⟩ := h.stream.sendFinal
    exact ⟨_, gs, last, rfl, hfin, fun h => absurd rfl h, hchunks⟩
  · have hne : s.enclaveRecipeBuffer ≠ [] := fun hnil => hrest (h.collected_nil_iff.mp hnil)
    rw [if_pos hne]
    obtain ⟨s', gs, last, hrun, hfin, hlast, hchunks⟩ := h.tailLoop hne
    exact ⟨s', gs, last, hrun, hfin, fun _ => hlast, hchunks⟩

theorem restoreRun_recipePieces (p : Params) (fetch : ContainerID → Bytes)
    (sessionKey masterKey : Bytes) (batches : List (List RecipeEntry)) :
    restoreRun p fetch sessionKey masterKey (batches.map (recipePiece p masterKey)) = (do
      let s ← batchesLoop (enclaveCodec p sessionKey) p.sendChunkBatchSize fetch batches
      procRecipeTailBatch p fetch sessionKey s) := by
  simp only [restoreRun, batchesLoop, List.foldlM_map, procRecipeBatch_recipePiece]

/-- **The restore stream.**  However the recipe is split into batches, no access
is out of range, the messages are a restore stream of the recovered chunks in
recipe order, and at every moment the request names at most sixteen containers
and every collected entry has the slot of the container its recipe entry names. -/
theorem restore_stream (p : Params) (fetch : ContainerID → Bytes) (sessionKey masterKey : Bytes)
    (batches : List (List RecipeEntry)) :
    (∃ s, restoreRun p fetch sessionKey masterKey (batches.map (recipePiece p masterKey)) = .ok s ∧
      RestoreStream (enclaveCodec p sessionKey) p.sendChunkBatchSize s.sent
        (batches.flatten.map (recovered (enclaveCodec p sessionKey) fetch))) ∧
    ∀ part e, ∃ s,
      midBatch (enclaveCodec p sessionKey) p.sendChunkBatchSize fetch batches part e = .ok s ∧
      s.idBuffer.length ≤ containerCappingValue ∧
      ∃ done pending, done ++ pending = batches.flatten ++ part ++ [e] ∧
        List.Forall₂ (Slotted s.idBuffer) s.enclaveRecipeBuffer pending := by
  refine ⟨?_, fun part e => midBatch_spec p.sendChunkBatchSize_pos batches part e⟩
  obtain ⟨s, rs, rest, hrun, hseen, hinv⟩ :=
    batchesLoop_spec (enclaveCodec p sessionKey) fetch p.sendChunkBatchSize_pos batches
  obtain ⟨s', gs, last, htail, hfin, _, hgroups⟩ := procRecipeTailBatch_spec hinv
  refine ⟨s', ?_, ?_⟩
  · rw [restoreRun_recipePieces, hrun]
    exact htail
  · have hchunks : (rs.flatten ++ rest).map
          (fun t => recovered (enclaveCodec p sessionKey) fetch t.2) =
        batches.flatten.map (recovered (enclaveCodec p sessionKey) fetch) := by
      rw [hseen, ← map_snd_tagged, List.map_map]
      rfl
    apply hfin.restoreStream (hgroups.trans hchunks)
    intro c hc
    obtain ⟨e, _, rfl⟩ := List.mem_map.mp hc
    exact length_recovered_lt _ _ _

end Debe
