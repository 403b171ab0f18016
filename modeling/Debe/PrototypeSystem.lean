import Debe.BaselineSystem
import Debe.Framing
import Debe.Pipeline
import Debe.StoredOnce

/-!
# A file through the Prototype

The client cuts a file into chunks, sends them in encrypted batches and ends with the recipe head;
the enclave stores them among those of other completed sessions, before and after; a restore under
a new session key reads the recipe with the master key, fetches the containers and sends the
chunks back; the client checks their number and writes them.  What it writes is the file.

One exception is left, which is shown elsewhere: a chunk may be stored raw although its bytes are
a block.  The recipe may end where a request is full, since this server sends what it has left.
-/

namespace Debe.Prototype

open Records FrameBuffer

/-! ## The client of a restore -/

/-- The members of `DataRetriever` that a message changes. -/
structure Retriever where
  outputMQ : List Chunk
  totalRecvDataSize : Nat
  totalRecvChunkNum : Nat
  deriving DecidableEq, Repr

/-- A retriever that has received nothing. -/
def Retriever.init : Retriever where
  outputMQ := []
  totalRecvDataSize := 0
  totalRecvChunkNum := 0

/-- The loop body of `ProcessChunkBatch` behind the copy. -/
def pushRetrieved (r : Retriever) (tmpChunk : Chunk) : Retriever where
  outputMQ := r.outputMQ ++ [tmpChunk]
  totalRecvDataSize := r.totalRecvDataSize + tmpChunk.val.length
  totalRecvChunkNum := r.totalRecvChunkNum + 1

variable (p : Params) (sessionKey : Bytes)

/-- `DataRetriever::ProcessChunkBatch`.  A message comes with the bytes that stand behind it in
the buffer. -/
def processChunkBatch (m : FramedMsg × (Nat → UInt8)) (r : Retriever) :
    Except Fault Retriever := do
  let chunks ← retrieveChunks p sessionKey m.2 m.1
  return chunks.foldl pushRetrieved r

/-- How `DataRetriever::Run` ends: `waiting` if no message is left and the final one has not
come. -/
inductive RetrieverEnd
  | finished (r : Retriever)
  | waiting (r : Retriever)
  | exitFailure (message : String)
  deriving DecidableEq, Repr

/-- The receive loop. -/
def receiveLoop : List (FramedMsg × (Nat → UInt8)) → Retriever → Except Fault RetrieverEnd
  | [], r => .ok (.waiting r)
  | m :: msgs, r =>
      match m.1.messageType with
      | .serverRestoreChunk => do
          let r ← processChunkBatch p sessionKey m r
          receiveLoop msgs r
      | .serverRestoreFinal => do
          let r ← processChunkBatch p sessionKey m r
          return .finished r
      | _ => .ok (.exitFailure "wrong message type.")

/-- The check behind the loop. -/
def checkTotal (fileRecipeHead : FileRecipeHead) : RetrieverEnd → RetrieverEnd
  | .finished r =>
      let received := r.totalRecvChunkNum
      let expected := fileRecipeHead.totalChunkNum.toNat
      if received ≠ expected then
        .exitFailure
          s!"recv chunk num: {received}, expected chunk num: {expected}, cannot match."
      else .finished r
  | other => other

/-- `DataRetriever::Run`. -/
def dataRetrieverRun (fileRecipeHead : FileRecipeHead)
    (msgs : List (FramedMsg × (Nat → UInt8))) : Except Fault RetrieverEnd := do
  let ending ← receiveLoop p sessionKey msgs .init
  return checkTotal fileRecipeHead ending

variable {p : Params} (sessionKey : Bytes)

theorem foldl_pushRetrieved (chunks : List Chunk) (r : Retriever) :
    chunks.foldl pushRetrieved r = {
      outputMQ := r.outputMQ ++ chunks
      totalRecvDataSize := r.totalRecvDataSize + (chunks.map fun c => c.val.length).sum
      totalRecvChunkNum := r.totalRecvChunkNum + chunks.length } := by
  induction chunks generalizing r with
  | nil => simp
  | cons c cs ih =>
      rw [List.foldl_cons, ih]
      simp only [pushRetrieved, List.append_assoc, List.singleton_append, List.map_cons,
        List.sum_cons, List.length_cons, Retriever.mk.injEq, true_and]
      omega

/-- A batch is pushed. -/
theorem processChunkBatch_batchMsg (messageType : MessageType) {g : List Bytes}
    (hfits : (frames g).length < 2 ^ 32) (hsizes : ∀ chunk ∈ g, chunk.length ≤ maxChunkSize)
    (stale : Nat → UInt8) (r : Retriever) :
    ∃ pushed : List Chunk, pushed.map (·.val) = g ∧
      processChunkBatch p sessionKey (batchMsg p sessionKey messageType g, stale) r =
        .ok (pushed.foldl pushRetrieved r) := by
  obtain ⟨pushed, hrun, hpushed⟩ :=
    (indexReceives_batchMsg (p := p) sessionKey messageType hfits).client sessionKey hsizes stale
  refine ⟨pushed, hpushed, ?_⟩
  simp only [processChunkBatch, hrun, bind, Except.bind, pure, Except.pure]

/-- **The receive loop** over batches and a final one pushes their chunks. -/
theorem receiveLoop_batches {groups : List (List Bytes)} {last : List Bytes}
    (hfits : ∀ g ∈ groups ++ [last], (frames g).length < 2 ^ 32)
    (hsizes : ∀ g ∈ groups ++ [last], ∀ chunk ∈ g, chunk.length ≤ maxChunkSize)
    {msgs : List (FramedMsg × (Nat → UInt8))}
    (hmsgs : msgs.map Prod.fst = groups.map (batchMsg p sessionKey .serverRestoreChunk) ++
      [batchMsg p sessionKey .serverRestoreFinal last]) (r : Retriever) :
    ∃ pushed : List Chunk, pushed.map (·.val) = groups.flatten ++ last ∧
      receiveLoop p sessionKey msgs r = .ok (.finished (pushed.foldl pushRetrieved r)) := by
  induction groups generalizing msgs r with
  | nil =>
      obtain ⟨⟨m, stale⟩, rest, rfl, rfl, hrest⟩ := List.map_eq_cons_iff.mp hmsgs
      obtain ⟨pushed, hpushed, hrun⟩ := processChunkBatch_batchMsg (p := p) sessionKey
        .serverRestoreFinal (hfits last (by simp)) (hsizes last (by simp)) stale r
      refine ⟨pushed, hpushed, ?_⟩
      simp only [receiveLoop, batchMsg]
      rw [← batchMsg, hrun]
      rfl
  | cons g groups ih =>
      obtain ⟨⟨m, stale⟩, rest, rfl, rfl, hrest⟩ := List.map_eq_cons_iff.mp hmsgs
      obtain ⟨first, hfirst, hrun⟩ := processChunkBatch_batchMsg (p := p) sessionKey
        .serverRestoreChunk (hfits g (by simp)) (hsizes g (by simp)) stale r
      obtain ⟨pushed, hpushed, hloop⟩ := ih (fun g hg => hfits g (List.mem_cons_of_mem _ hg))
        (fun g hg => hsizes g (List.mem_cons_of_mem _ hg)) hrest (first.foldl pushRetrieved r)
      refine ⟨first ++ pushed, ?_, ?_⟩
      · rw [List.map_append, hfirst, hpushed, List.flatten_cons, List.append_assoc]
      · rw [List.foldl_append, ← hloop]
        simp only [receiveLoop, batchMsg]
        rw [← batchMsg, hrun]
        rfl

/-! ## The session of an upload -/

/-- A batch behind its header. -/
def uploadFrame (m : UploadMsg) : FramedMsg where
  messageType := .clientUploadChunk
  currentItemNum := m.currentItemNum
  dataSize := UInt32.ofNat m.dataBuffer.length
  data := m.dataBuffer

/-- What the server receives in a session. -/
def sessionMsgs (s : UploadSession p) : List FramedMsg :=
  s.batches.map (fun b => uploadFrame (b.msg s.sessionKey)) ++
    (s.recipeEnd.map recipeEndMsg).toList

theorem uploadFrame_msg (b : Batch p) :
    uploadFrame (b.msg sessionKey) = batchMsg p sessionKey .clientUploadChunk b.data := by
  simp only [uploadFrame, Batch.msg, batchMsg, p.crypto.length_sessionKeyEnc, Batch.data,
    List.length_map]

/-- Chunks that a message can count are a batch. -/
theorem exists_batch {g : List Bytes} (hlen : g.length ≤ p.sendChunkBatchSize)
    (hfits : (frames g).length < 2 ^ 32) (hsizes : ∀ chunk ∈ g, chunk.length ≤ maxChunkSize) :
    ∃ b : Batch p, b.data = g := by
  have hcount := four_mul_length_le g
  refine ⟨⟨g.pmap Subtype.mk hsizes, ?_, ?_⟩, ?_⟩
  · rwa [List.length_pmap]
  · rw [List.length_pmap]
    omega
  · rw [Batch.data, List.map_pmap, List.pmap_eq_map, List.map_id']

theorem exists_batches {groups : List (List Bytes)}
    (hgroups : ∀ g ∈ groups, g.length ≤ p.sendChunkBatchSize ∧ (frames g).length < 2 ^ 32)
    (hsizes : ∀ g ∈ groups, ∀ chunk ∈ g, chunk.length ≤ maxChunkSize) :
    ∃ batches : List (Batch p), batches.map Batch.data = groups := by
  induction groups with
  | nil => exact ⟨[], rfl⟩
  | cons g groups ih =>
      rw [List.forall_mem_cons] at hgroups hsizes
      obtain ⟨b, hb⟩ := exists_batch hgroups.1.1 hgroups.1.2 hsizes.1
      obtain ⟨batches, hbatches⟩ := ih hgroups.2 hsizes.2
      exact ⟨b :: batches, by rw [List.map_cons, hb, hbatches]⟩

/-- What waits leaves before the end of the recipe, as a batch no larger than the others. -/
theorem sendRecipeEnd_batches {seen : List Bytes} {s : FrameSender}
    (h : Sending p sessionKey .clientUploadChunk seen s) (recipeHead : FileRecipeHead) :
    ∃ s' : FrameSender, ∃ groups : List (List Bytes),
      sendRecipeEnd p sessionKey s recipeHead = .ok s' ∧
      s'.sent = groups.map (batchMsg p sessionKey .clientUploadChunk) ++
        [recipeEndMsg recipeHead] ∧
      groups.flatten = seen ∧
      ∀ g ∈ groups, g.length ≤ p.sendChunkBatchSize ∧ (frames g).length < 2 ^ 32 := by
  obtain ⟨groups, rest, hfilling, hholds, henc, hsent, hgroups, -⟩ := h
  have hfull : ∀ g ∈ groups, g.length ≤ p.sendChunkBatchSize ∧ (frames g).length < 2 ^ 32 :=
    fun g hg => ⟨(hfilling.full g hg).le, hgroups g hg⟩
  have hcount := hholds.toNat_currentItemNum
  by_cases hrest : rest = []
  · have hnum : s.plain.currentItemNum = 0 := by
      rw [← UInt32.toNat_inj, hcount, hrest]
      rfl
    obtain ⟨s', hrun, -, -, hsent'⟩ :=
      sendRecipeEnd_of_empty sessionKey recipeHead hnum hholds.length
    refine ⟨s', groups, hrun, by rw [hsent', hsent], ?_, hfull⟩
    rw [← hfilling.eq, hrest, List.append_nil]
  · have hnum : s.plain.currentItemNum ≠ 0 := by
      intro hzero
      rw [hzero] at hcount
      exact hrest (List.length_eq_zero_iff.mp hcount.symm)
    obtain ⟨enc, -, hrun₁⟩ := sendBatch_holds (p := p) sessionKey
      .clientUploadChunk hholds henc
    rw [sendRecipeEnd_of_sent sessionKey hnum hrun₁ rfl]
    obtain ⟨s', hrun, -, -, hsent'⟩ :=
      sendRecipeEnd_of_empty (p := p) sessionKey recipeHead
        (s := { s with plain := s.plain.reset, enc := enc, sent := _ }) rfl hholds.length
    refine ⟨s', groups ++ [rest], hrun, by simp [hsent', hsent], ?_, ?_⟩
    · rw [← hfilling.eq, List.flatten_append, List.flatten_singleton]
    · exact List.forall_mem_append.mpr
        ⟨hfull, List.forall_mem_singleton.mpr ⟨hfilling.lt.le, hholds.fits⟩⟩

/-- **An upload** is a session of these chunks. -/
theorem dataSenderRun_batches (hbuffer : sendBufferSize p < 2 ^ 32) (heap : Nat → UInt8)
    (chunks : List Chunk) (recipeHead : FileRecipeHead) :
    ∃ s : FrameSender, ∃ batches : List (Batch p),
      dataSenderRun p sessionKey heap (uploadItems chunks recipeHead) = .ok s ∧
      s.sent = batches.map (fun b => uploadFrame (b.msg sessionKey)) ++
        [recipeEndMsg recipeHead] ∧
      batches.flatMap Batch.data = chunks.map (·.val) := by
  have hsizes : ∀ chunk ∈ chunks.map (·.val), chunk.length ≤ maxChunkSize := by
    intro chunk hchunk
    obtain ⟨c, -, rfl⟩ := List.mem_map.mp hchunk
    exact c.property
  obtain ⟨s, hrun, hsending⟩ := processChunks_sending (p := p) sessionKey heap
    (batchesFit_of_size hbuffer hsizes)
  obtain ⟨s', groups, hend, hsent, hflat, hgroups⟩ :=
    sendRecipeEnd_batches sessionKey hsending recipeHead
  obtain ⟨batches, hbatches⟩ := exists_batches (p := p) hgroups fun g hg chunk hchunk =>
    hsizes chunk (hflat ▸ List.mem_flatten.mpr ⟨g, hg, hchunk⟩)
  refine ⟨s', batches, ?_, ?_, ?_⟩
  · rw [dataSenderRun_items sessionKey heap chunks recipeHead hrun]
    exact hend
  · simp only [uploadFrame_msg, hsent, ← hbatches, List.map_map, Function.comp_def]
  · rw [List.flatMap_def, hbatches, hflat]

/-! ## The recipe -/

/-- The entries of a recipe file are whole. -/
def WholeEntries (file : Bytes) : Prop :=
  recipeEntrySize ∣ (file.drop fileRecipeHeadSize).length

theorem recipeEntrySize_dvd_pieces (masterKey : Bytes) (qs : List (List RecipeEntry)) :
    recipeEntrySize ∣ ((qs.map (recipePiece p masterKey)).flatten).length := by
  induction qs with
  | nil => exact Nat.dvd_zero _
  | cons q qs ih =>
      rw [List.map_cons, List.flatten_cons, List.length_append, length_recipePiece]
      exact Nat.dvd_add (Nat.dvd_mul_right _ _) ih

/-- A closed session leaves whole entries. -/
theorem wholeEntries_close {head : FileRecipeHead} {u : Upload}
    (h : RecipeInv p head u.client) (hbody : u.client.curContainer.body = [])
    (recipeEnd : Option FileRecipeHead) :
    WholeEntries (closeSession p recipeEnd u).client.recipeFile := by
  cases recipeEnd with
  | none =>
      obtain ⟨qs, -, hfile, -, -⟩ := h
      rw [closeSession_none hbody, WholeEntries, hfile, ← head.length_toBytes, List.drop_left]
      exact recipeEntrySize_dvd_pieces u.client.masterKey qs
  | some newHead =>
      obtain ⟨qs, -, htail, -, -⟩ := h.tail
      rw [closeSession_some_recipeFile, WholeEntries, ← newHead.length_toBytes, List.drop_left,
        newHead.length_toBytes, ← head.length_toBytes, htail, List.drop_left, List.length_append,
        length_recipePiece]
      exact Nat.dvd_add (recipeEntrySize_dvd_pieces u.client.masterKey qs) (Nat.dvd_mul_right _ _)

/-- **Recipes have whole entries**, whatever the sessions. -/
theorem runSessions_whole {sessions : List (UploadSession p)} {srv : Server}
    (hrun : runSessions p .init sessions = .ok srv) :
    ∀ path file, srv.recipes.lookup path = some file → WholeEntries file := by
  obtain ⟨srv', hrun', -, -, hwhole⟩ := Loops.foldlM_ok (f := runSession p)
    (l := sessions) (s := Server.init)
    (P := fun _ srv => ∃ stored, FreqRel p srv.index srv.out stored ∧
      ∀ path file, srv.recipes.lookup path = some file → WholeEntries file)
    ⟨∅, freqRel_init p, by simp [Server.init]⟩ (by
      rintro pre s rest srv - ⟨stored, hrel, hwhole⟩
      obtain ⟨srv', hrun, hrel', -, hrec⟩ := runSession_spec hrel s
      refine ⟨srv', hrun, _, hrel', ?_⟩
      have hinv := (sessionInv_login p stored srv s).chunks s.chunks
      have hbody := (naiveSession_storeStep p stored srv s).1.body rfl
      intro path file hlook
      rw [hrec] at hlook
      by_cases hpath : path = s.recipePath
      · rw [hpath, AList.lookup_insert] at hlook
        rw [← Option.some.inj hlook]
        exact wholeEntries_close hinv.recipe hbody s.recipeEnd
      · rw [AList.lookup_insert_ne hpath] at hlook
        exact hwhole path file hlook)
  obtain rfl := Except.ok.inj (hrun'.symm.trans hrun)
  exact hwhole

/-- What `EnclaveRecvDecoder::Run` reads at a time behind the head. -/
def fileReads (p : Params) (file : Bytes) : List Bytes :=
  pieces (recipeEntrySize * p.sendRecipeBatchSize) (file.drop fileRecipeHeadSize)

/-- A batch of whole entries. -/
theorem procRecipeBatch_of_dvd (fetch : ContainerID → Bytes) (masterKey : Bytes) {bs : Bytes}
    (hdvd : recipeEntrySize ∣ bs.length) (s : Restore) :
    procRecipeBatch p fetch sessionKey masterKey bs (bs.length / recipeEntrySize) s = (do
      let r ← batchLoop (enclaveCodec p sessionKey) p.sendChunkBatchSize fetch s
        (readPiece p masterKey bs)
      return r.1) := by
  have htake : bs.take (bs.length / recipeEntrySize * recipeEntrySize) = bs :=
    List.take_of_length_le (by rw [Nat.div_mul_cancel hdvd])
  simp only [procRecipeBatch, htake, readPiece]

/-- **A restore** of chunks that their addresses give back: full messages and a final one carry
them in order. -/
theorem restoreRun_groups {d : Disk} {masterKey file : Bytes} {chunks : List Bytes}
    (hwhole : WholeEntries file)
    (haddrs : List.Forall₂
      (fun c a => recovered (enclaveCodec p sessionKey) (fetchContainer d) a = c) chunks
      (readRecipe p masterKey file).2) :
    ∃ restore groups last,
      restoreRun p (fetchContainer d) sessionKey masterKey (fileReads p file) = .ok restore ∧
      Finished (enclaveCodec p sessionKey) p.sendChunkBatchSize restore groups last ∧
      groups.flatten ++ last = chunks := by
  have hn : 0 < recipeEntrySize * p.sendRecipeBatchSize :=
    Nat.mul_pos (by decide) p.sendRecipeBatchSize_pos
  obtain ⟨s, rs, rest, hrun, hseen, hinv⟩ := batchesLoop_spec (enclaveCodec p sessionKey)
    (fetchContainer d) p.sendChunkBatchSize_pos ((fileReads p file).map (readPiece p masterKey))
  obtain ⟨restore, groups, last, htail, hfinished, -, hgroups⟩ := procRecipeTailBatch_spec hinv
  refine ⟨restore, groups, last, ?_, hfinished, ?_⟩
  · have hreads : (fileReads p file).foldlM (fun s recipeBuffer =>
        procRecipeBatch p (fetchContainer d) sessionKey masterKey recipeBuffer
          (recipeBuffer.length / recipeEntrySize) s) Restore.init = .ok s := by
      rw [← hrun, batchesLoop, List.foldlM_map]
      refine Loops.foldlM_congr (fun bs hbs s => ?_) Restore.init
      exact procRecipeBatch_of_dvd sessionKey (fetchContainer d) masterKey
        (dvd_length_of_mem_pieces hn (Nat.dvd_mul_right _ _) hwhole bs hbs) s
    rw [restoreRun, hreads]
    exact htail
  · have hentries : ((fileReads p file).map (readPiece p masterKey)).flatten =
        (readRecipe p masterKey file).2 := List.flatMap_def.symm
    have hchunks : (readRecipe p masterKey file).2.map
        (recovered (enclaveCodec p sessionKey) (fetchContainer d)) = chunks := by
      have hmap := List.forall₂_map_right_iff.mpr (haddrs.imp fun c a h => h.symm :
        List.Forall₂ (fun c a => c = recovered (enclaveCodec p sessionKey) (fetchContainer d) a)
          chunks _)
      exact (List.forall₂_eq_eq_eq ▸ hmap : chunks = _).symm
    rw [hgroups, hseen, ← hchunks, ← hentries, ← map_snd_tagged, List.map_map]
    rfl

/-- The messages of a session tell its chunks and its head. -/
theorem session_of_msgs {session : UploadSession p} {batches : List (Batch p)}
    {recipeHead : FileRecipeHead}
    (h : sessionMsgs session =
      batches.map (fun b => uploadFrame (b.msg session.sessionKey)) ++
        [recipeEndMsg recipeHead]) :
    session.recipeEnd = some recipeHead ∧ session.chunks = batches.flatMap Batch.data := by
  let read : FramedMsg → List Bytes := fun m =>
    recvChunks p session.sessionKey ⟨m.currentItemNum, m.data⟩
  have hread : ∀ bs : List (Batch p),
      (bs.map fun b => uploadFrame (b.msg session.sessionKey)).flatMap read =
        bs.flatMap Batch.data := by
    intro bs
    rw [List.flatMap_map]
    exact List.flatMap_congr fun b _ => recvChunks_msg b session.sessionKey
  unfold sessionMsgs at h
  cases hend : session.recipeEnd with
  | none =>
      rw [hend, Option.map_none, Option.toList_none, List.append_nil] at h
      have hmem : recipeEndMsg recipeHead ∈
          session.batches.map fun b => uploadFrame (b.msg session.sessionKey) := by
        rw [h]
        exact List.mem_append_right _ (List.mem_singleton_self _)
      obtain ⟨b, -, hb⟩ := List.mem_map.mp hmem
      cases congrArg FramedMsg.messageType hb
  | some head =>
      rw [hend, Option.map_some, Option.toList_some] at h
      obtain ⟨hbatches, hlast⟩ := List.append_inj' h rfl
      have hbytes : head.toBytes = recipeHead.toBytes :=
        congrArg FramedMsg.data (List.cons.inj hlast).1
      refine ⟨?_, ?_⟩
      · rw [← head.ofBytes_toBytes, hbytes, recipeHead.ofBytes_toBytes]
      · rw [← hread, ← hbatches, hread]
        rfl

/-! ## From the file to the file -/

/-- What `FastCDC` makes of a file. -/
theorem fastCDC_items {c : ChunkerConfig} (hc : c.Valid) (hmax : c.maxChunkSize ≤ maxChunkSize)
    {file : Bytes} (hfile : file.length < 2 ^ 64) :
    ∃ pieces, ∃ chunks : List Chunk, ∃ recipeHead : FileRecipeHead,
      Chunking c file pieces ∧ chunks.map (·.val) = pieces ∧
      recipeHead.totalChunkNum.toNat = pieces.length ∧
      ∀ fuel, file.length + 1 < fuel →
        fastCDC c fuel file = some (.ok (uploadItems chunks recipeHead)) := by
  obtain ⟨pieces, hchunking⟩ := exists_chunking hc file
  obtain ⟨chunks, hchunks, hrun⟩ :=
    pushed_of_fit (hchunking.fit hmax) { fileSize := 0, chunkIDCnt := 0, pushed := [] }
  refine ⟨pieces, chunks, ⟨UInt64.ofNat file.length, UInt64.ofNat pieces.length⟩, hchunking,
    hchunks, (hchunking.counted hfile).2, fun fuel hfuel => ?_⟩
  rw [fastCDC_eq hc hchunking.greedy hfuel, hrun, hchunking.flatten]
  simp [Except.map, finishChunking, uploadItems]

/-- The address of a chunk gives it back. -/
theorem recovered_of_keptAt {d : Disk} {a : RecipeEntry} {chunk : Bytes}
    (hnd : (d.written.map Container.containerID).Nodup) (h : KeptAt p d.written a chunk)
    (hsized : Sized chunk) (hsafe : CodecSafe p chunk) :
    recovered (enclaveCodec p sessionKey) (fetchContainer d) a = chunk := by
  obtain ⟨iv, hat, hlen⟩ := h
  obtain ⟨body, behind, hbody, hdrop⟩ := hat.fetched hnd
  have hfetch : fetchContainer d a.containerName = body := by
    rw [fetchContainer, hbody, Option.getD_some]
  -- the decoder's chunk is what `RecoverOneChunk` appends
  have happend := recoverOneChunk_storedRecord p chunk behind iv ⟨0, []⟩
  have hchunk := RestoreBuf.append_inj.mp
    (((enclaveCodec p sessionKey).recoverOneChunk_eq _ _ ⟨0, []⟩).symm.trans happend)
  rw [recovered, hfetch, hdrop, hlen, hchunk]
  exact (decompressOrKeep_payload hsized.1 hsized.2).mpr hsafe

/-- A message of the decoder behind its header. -/
def restoreFrame (m : RestoreMsg) : FramedMsg where
  messageType := m.messageType
  currentItemNum := UInt32.ofNat m.currentItemNum
  dataSize := UInt32.ofNat m.data.length
  data := m.data

theorem restoreFrame_msgOf (messageType : MessageType) (g : List Bytes) :
    restoreFrame (msgOf (enclaveCodec p sessionKey) messageType g) =
      batchMsg p sessionKey messageType g := by
  simp only [restoreFrame, msgOf, batchMsg, enclaveCodec, p.crypto.length_sessionKeyEnc]

/-- **The client** pushes the chunks of a finished stream and finds them complete. -/
theorem dataRetrieverRun_finished (hbuffer : sendBufferSize p < 2 ^ 32) {restore : Restore}
    {groups : List (List Bytes)} {last chunks : List Bytes}
    (h : Finished (enclaveCodec p sessionKey) p.sendChunkBatchSize restore groups last)
    (hchunks : groups.flatten ++ last = chunks)
    (hsizes : ∀ chunk ∈ chunks, chunk.length ≤ maxChunkSize) {recipeHead : FileRecipeHead}
    (hhead : recipeHead.totalChunkNum.toNat = chunks.length)
    {msgs : List (FramedMsg × (Nat → UInt8))}
    (hmsgs : msgs.map Prod.fst = restore.sent.map restoreFrame) :
    ∃ r, dataRetrieverRun p sessionKey recipeHead msgs = .ok (.finished r) ∧
      r.outputMQ.map (·.val) = chunks := by
  have hlen : ∀ g ∈ groups ++ [last], g.length ≤ p.sendChunkBatchSize := by
    intro g hg
    rcases List.mem_append.mp hg with hg | hg
    · exact (h.full g hg).le
    · rw [List.mem_singleton.mp hg]
      exact h.last_le
  have hflat : (groups ++ [last]).flatten = chunks := by
    rw [List.flatten_append, List.flatten_singleton, hchunks]
  have hparts : ∀ g ∈ groups ++ [last], ∀ chunk ∈ g, chunk.length ≤ maxChunkSize :=
    fun g hg chunk hchunk => hsizes chunk (hflat ▸ List.mem_flatten.mpr ⟨g, hg, hchunk⟩)
  have hfits : ∀ g ∈ groups ++ [last], (frames g).length < 2 ^ 32 := fun g hg =>
    ((length_frames_le (hparts g hg)).trans (Nat.mul_le_mul_right _ (hlen g hg))).trans_lt hbuffer
  have hbatches : msgs.map Prod.fst =
      groups.map (batchMsg p sessionKey .serverRestoreChunk) ++
        [batchMsg p sessionKey .serverRestoreFinal last] := by
    rw [hmsgs, h.sent, List.map_append, List.map_map, List.map_singleton, restoreFrame_msgOf]
    simp only [Function.comp_def, restoreFrame_msgOf]
  obtain ⟨pushed, hpushed, hloop⟩ :=
    receiveLoop_batches sessionKey hfits hparts hbatches .init
  rw [hchunks] at hpushed
  refine ⟨pushed.foldl pushRetrieved .init, ?_, ?_⟩
  · have hcount : (pushed.foldl pushRetrieved .init).totalRecvChunkNum =
        recipeHead.totalChunkNum.toNat := by
      rw [foldl_pushRetrieved, hhead, ← hpushed, List.length_map]
      exact Nat.zero_add _
    simp only [dataRetrieverRun, hloop, bind, Except.bind, pure, Except.pure, checkTotal, hcount,
      ne_eq, not_true_eq_false, if_false]
  · rw [foldl_pushRetrieved, ← hpushed]
    rfl

/-- The addresses that completed uploads wrote into a recipe give its chunks back. -/
theorem recovered_of_uploadsKept {sessions : List (UploadSession p)} {srv : Server}
    {stored : AList (fun _ : Bytes => RecipeEntry)} (h : UploadsKept p sessions srv stored)
    (hfresh : FreshNames p srv.disk.draws) {chunks : List Bytes}
    (hsized : ∀ c ∈ chunks, Sized c) (hcollision : NoCollision p chunks (uploadedChunks sessions))
    (hsafe : ∀ c ∈ chunks, CodecSafe p c) {addrs : List RecipeEntry}
    (haddrs : List.map some addrs = chunks.map fun c => stored.lookup (p.crypto.generateHash c)) :
    List.Forall₂
      (fun c a => recovered (enclaveCodec p sessionKey) (fetchContainer srv.disk) a = c) chunks
      addrs := by
  have hnd := h.server.named.nodup hfresh
  have hlook : List.Forall₂ (fun c a => stored.lookup (p.crypto.generateHash c) = some a)
      chunks addrs := forall₂_of_map_some haddrs fun c a ha => ha
  have hgood : ∀ c ∈ chunks, Sized c ∧ (∀ c' ∈ uploadedChunks sessions,
      p.crypto.generateHash c' = p.crypto.generateHash c → c' = c) ∧ CodecSafe p c :=
    fun c hc => ⟨hsized c hc, hcollision c hc, hsafe c hc⟩
  refine ((List.forall₂_and_left _ _).mpr ⟨hgood, hlook⟩).imp ?_
  rintro c a ⟨⟨hsize, hown, hcodec⟩, ha⟩
  obtain ⟨c', hc', hhash, hkept⟩ := h.once.indexes.placed _ _ ha
  obtain rfl := hown c' (Firsts.mem_of_mem_firsts hc') hhash
  exact recovered_of_keptAt sessionKey hnd hkept hsize hcodec

/-- **Upload and restore through the Prototype.**  A file is cut into chunks and sent without a
fault.  In whatever session the server gets these messages, among any other completed ones before
and after, as long as no later one has its path: the server runs through, and if the names it
drew are fresh, every restore of the recipe ends, under any session key, in any state of the
client's buffer; the number of chunks is the one in the recipe head; and whenever
the thread that writes them leaves its loop, what it wrote is the file.  It takes that no
received chunk collides with one of the file and that none of the file is stored raw and decodes
to something else. -/
theorem prototype_upload_restore (c : ChunkerConfig) (hc : c.Valid)
    (hmax : c.maxChunkSize ≤ maxChunkSize) (p : Params) (hbuffer : sendBufferSize p < 2 ^ 32)
    (sessionKey : Bytes) (heap : Nat → UInt8) (file : Bytes) (hfile : file.length < 2 ^ 64) :
    ∃ pieces items, ∃ sender : FrameSender, ∃ batches : List (Batch p), ∃ recipeHead,
      Chunking c file pieces ∧
      (∀ fuel, file.length + 1 < fuel → fastCDC c fuel file = some (.ok items)) ∧
      dataSenderRun p sessionKey heap items = .ok sender ∧
      sender.sent = batches.map (fun b => uploadFrame (b.msg sessionKey)) ++
        [recipeEndMsg recipeHead] ∧
      ∀ (pre post : List (UploadSession p)) (session : UploadSession p),
        session.sessionKey = sessionKey → sessionMsgs session = sender.sent →
        (∀ s ∈ pre ++ post, s.recipeEnd.isSome) →
        (∀ s ∈ post, s.recipePath ≠ session.recipePath) →
        NoCollision p pieces (uploadedChunks (pre ++ session :: post)) →
        (∀ piece ∈ pieces, CodecSafe p piece) →
        ∃ srv, runSessions p .init (pre ++ session :: post) = .ok srv ∧
          (FreshNames p srv.disk.draws →
            ∃ recipe, srv.recipes.lookup session.recipePath = some recipe ∧
              ∀ sessionKey', ∃ restore,
                restoreRun p (fetchContainer srv.disk) sessionKey' session.masterKey
                  (fileReads p recipe) = .ok restore ∧
                ∀ msgs : List (FramedMsg × (Nat → UInt8)),
                  msgs.map Prod.fst = restore.sent.map restoreFrame →
                  ∃ r, dataRetrieverRun p sessionKey'
                      (FileRecipeHead.ofBytes (recipe.take fileRecipeHeadSize)) msgs =
                        .ok (.finished r) ∧
                    ∀ writer, Runs.Reaches (Pipeline.step Pipeline.restoreWrite)
                        (Pipeline.start (r.outputMQ.map (·.val)) ⟨[], 0, 0⟩) writer →
                      writer.pc = .left →
                      writer.sink = ⟨file, pieces.length, file.length⟩) := by
  obtain ⟨pieces, chunks, recipeHead, hchunking, hchunks, hhead, hitems⟩ :=
    fastCDC_items hc hmax hfile
  obtain ⟨sender, batches, hsend, hsent, hdata⟩ :=
    dataSenderRun_batches (p := p) sessionKey hbuffer heap chunks recipeHead
  refine ⟨pieces, _, sender, batches, recipeHead, hchunking, hitems, hsend, hsent, ?_⟩
  intro pre post session hkey hmsgs hdone hpaths hcollision hsafe
  subst hkey
  obtain ⟨hend, hown⟩ := session_of_msgs (hmsgs.trans hsent)
  rw [hdata, hchunks] at hown
  have hcompleted : ∀ s ∈ pre ++ session :: post, s.recipeEnd.isSome := by
    intro s hs
    simp only [List.mem_append, List.mem_cons] at hs hdone
    rcases hs with hs | rfl | hs
    · exact hdone s (.inl hs)
    · rw [hend, Option.isSome_some]
    · exact hdone s (.inr hs)
  obtain ⟨srv, stored, hrun, hkept⟩ := runSessions_kept p _ hcompleted
  refine ⟨srv, hrun, fun hfresh => ?_⟩
  obtain ⟨recipe, head, addrs, hlook, hhead', hread, haddrs⟩ :=
    hkept.recipes pre session post rfl hpaths
  obtain rfl := Option.some.inj (hend.symm.trans hhead')
  have hfst : FileRecipeHead.ofBytes (recipe.take fileRecipeHeadSize) = recipeHead :=
    congrArg Prod.fst hread
  have hsnd : (readRecipe p session.masterKey recipe).2 = addrs := congrArg Prod.snd hread
  have hsized : ∀ piece ∈ pieces, Sized piece := by
    intro piece hpiece
    obtain ⟨before, behind, hsplit⟩ := List.append_of_mem hpiece
    exact ⟨List.length_pos_iff.mp (hchunking.sizes before piece behind hsplit).1,
      hchunking.fit hmax piece hpiece⟩
  rw [hown] at haddrs
  refine ⟨recipe, hlook, fun sessionKey' => ?_⟩
  have hback := recovered_of_uploadsKept sessionKey' hkept hfresh hsized hcollision hsafe haddrs
  rw [← hsnd] at hback
  obtain ⟨restore, groups, last, hrestore, hfinished, hgroups⟩ :=
    restoreRun_groups sessionKey' (runSessions_whole hrun _ _ hlook) hback
  refine ⟨restore, hrestore, fun msgs hframes => ?_⟩
  obtain ⟨r, hretrieve, hout⟩ := dataRetrieverRun_finished sessionKey' hbuffer hfinished hgroups
    (fun piece hpiece => (hsized piece hpiece).2) hhead hframes
  refine ⟨r, hfst ▸ hretrieve, fun writer hreach hleft => ?_⟩
  rw [Pipeline.restoreWriter_file hreach hleft, hout, hchunking.flatten]

/-- The upload of a file of the one byte `A`, as the server receives it. -/
def smallUpload : UploadSession smallParams :=
  { smallSession (some ⟨1, 1⟩) with recipePath := [9] }

/-- The server has the byte `A` from another upload, and gives it back. -/
theorem prototype_upload_restore_small :
    ∃ items sender srv recipe restore r,
      fastCDC defaultChunker 3 [0x41] = some (.ok items) ∧
      dataSenderRun smallParams [3] (fun _ => 0) items = .ok sender ∧
      runSessions smallParams .init [smallSession (some ⟨1, 1⟩), smallUpload] = .ok srv ∧
      srv.recipes.lookup [9] = some recipe ∧
      restoreRun smallParams (fetchContainer srv.disk) [5] [4] (fileReads smallParams recipe) =
        .ok restore ∧
      dataRetrieverRun smallParams [5] (FileRecipeHead.ofBytes (recipe.take 16))
        (restore.sent.map fun m => (restoreFrame m, fun _ => 0)) = .ok (.finished r) ∧
      ∀ writer, Runs.Reaches (Pipeline.step Pipeline.restoreWrite)
          (Pipeline.start (r.outputMQ.map (·.val)) ⟨[], 0, 0⟩) writer →
        writer.pc = .left → writer.sink = ⟨[0x41], 1, 1⟩ := by
  obtain ⟨pieces, items, sender, batches, recipeHead, hchunking, hitems, hsend, -, hserve⟩ :=
    prototype_upload_restore defaultChunker defaultChunker_valid (by decide) smallParams
      (by decide) [3] (fun _ => 0) [0x41] (by decide)
  have hpieces : [[0x41]] = pieces :=
    hchunking.unique _ (cuts_of_short defaultChunker_valid (by decide) (by decide))
  subst hpieces
  have hcut := hitems 3 (by decide)
  have hpushed : fastCDC defaultChunker 3 [0x41] =
      some (.ok (uploadItems [⟨[0x41], by decide⟩] ⟨1, 1⟩)) := by decide +kernel
  obtain rfl := Except.ok.inj (Option.some.inj (hcut.symm.trans hpushed))
  have hsent : (dataSenderRun smallParams [3] (fun _ => 0)
      (uploadItems [⟨[0x41], by decide⟩] ⟨1, 1⟩)).toOption.map (·.sent) =
        some (sessionMsgs smallUpload) := by decide +kernel
  rw [hsend] at hsent
  obtain ⟨srv, hrun, hrestore⟩ := hserve [smallSession (some ⟨1, 1⟩)] [] smallUpload rfl
    (Option.some.inj hsent).symm (by simp [smallSession]) (by simp)
    (by unfold NoCollision; decide) (by unfold CodecSafe; decide +kernel)
  rw [List.singleton_append] at hrun
  have hdraws : (runSessions smallParams .init
      [smallSession (some ⟨1, 1⟩), smallUpload]).toOption.map (·.disk.draws) = some 3 := by
    decide +kernel
  rw [hrun] at hdraws
  have hthree : srv.disk.draws = 3 := Option.some.inj hdraws
  obtain ⟨recipe, hlook, hback⟩ := hrestore (freshNames_small (by omega))
  obtain ⟨restore, hrestored, hretrieve⟩ := hback [5]
  obtain ⟨r, hretrieved, hwriter⟩ := hretrieve
    (restore.sent.map fun m => (restoreFrame m, fun _ => 0)) (by rw [List.map_map]; rfl)
  exact ⟨_, sender, srv, recipe, restore, r, hcut, hsend, hrun, hlook, hrestored, hretrieved,
    hwriter⟩

end Debe.Prototype
