import Debe.RecvDecoder

/-!
# The Baseline restore and its client

The Baseline server's `RecvDecoder` is the Prototype's decoder without the
encryption, and `DataRetriever::Run` is the client of both dialogues: it takes
messages until the final one arrives.  After the tail the server waits for the
client to close the connection, so a client that has not seen a final message by
then waits for a server that waits for the client.

The two tails differ when no entry is left over: the Prototype sends what is in
the buffer as the final message, the Baseline sends nothing.
-/

namespace Debe

open Records

/-- `RecvDecoder`'s codec: chunks are only decompressed, payloads leave as they are. -/
def baselineCodec : RestoreCodec where
  recoverOneChunk := baselineRecoverOneChunk
  wrap := id
  chunk bs n := decompressOrKeep (bs.take n)
  unwrap := id
  recoverOneChunk_eq _ _ _ := rfl
  length_chunk _ _ hn :=
    length_decompressOrKeep (lt_of_le_of_lt (List.length_take_le _ _) hn)
  unwrap_wrap _ := rfl

/-- `RecvDecoder::ProcessRecipeBatch`. -/
def processRecipeBatch (n : Nat) (fetch : ContainerID → Bytes) (recipeBuffer : Bytes)
    (recipeNum : Nat) (s : Restore) : Except Fault Restore := do
  let r ← batchLoop baselineCodec n fetch s (entriesOfBytes recipeNum recipeBuffer)
  return r.1

/-- `RecvDecoder::ProcessRecipeTailBatch`: there is no other branch. -/
def processRecipeTailBatch (n : Nat) (fetch : ContainerID → Bytes) (s : Restore) :
    Except Fault Restore :=
  if s.enclaveRecipeBuffer ≠ [] then tailLoop baselineCodec n fetch s else return s

/-- The loop of `RecvDecoder::Run` over what it read from the recipe file, and the
tail. -/
def baselineRestoreRun (n : Nat) (fetch : ContainerID → Bytes) (reads : List Bytes) :
    Except Fault Restore := do
  let s ← reads.foldlM (fun s recipeBuffer => processRecipeBatch n fetch recipeBuffer
    (recipeBuffer.length / recipeEntrySize) s) Restore.init
  processRecipeTailBatch n fetch s

/-! ## The client -/

/-- `DAE_TYPE`. -/
inductive DAEType
  | plain
  | ce
  | ted
  | dupless
  deriving DecidableEq, Repr

/-- The members of `DataRetriever` that a message changes: the unread part of the
key recipe, the key buffer, the chunks pushed to the writer and the counters. -/
structure Retriever where
  keyRecipeFile : Bytes
  readKeyBuffer : Bytes
  outputMQ : List Bytes
  totalRecvDataSize : Nat
  totalRecvChunkNum : Nat
  deriving DecidableEq, Repr

/-- A retriever that has opened the key recipe and received nothing. -/
def Retriever.init (keyRecipeFile readKeyBuffer : Bytes) : Retriever where
  keyRecipeFile := keyRecipeFile
  readKeyBuffer := readKeyBuffer
  outputMQ := []
  totalRecvDataSize := 0
  totalRecvChunkNum := 0

/-- The loop body of `ProcessChunkBatch`: chunk `i` with the `i`-th key read. -/
def retrieveChunk (c : Crypto) (methodType : DAEType) (r : Retriever) (chunk : Bytes × Nat) :
    Retriever :=
  let key := (r.readKeyBuffer.drop (chunk.2 * chunkHashSize)).take chunkHashSize
  { r with
    outputMQ := r.outputMQ ++
      [if methodType ≠ .plain then c.decryptWithKey key chunk.1 else chunk.1]
    totalRecvDataSize := r.totalRecvDataSize + chunk.1.length
    totalRecvChunkNum := r.totalRecvChunkNum + 1 }

/-- `DataRetriever::ProcessChunkBatch`.  A short read of the key recipe leaves the
rest of the key buffer as it was. -/
def processChunkBatch (c : Crypto) (methodType : DAEType) (m : RestoreMsg) (r : Retriever) :
    Retriever :=
  let keys := r.keyRecipeFile.take (m.currentItemNum * chunkHashSize)
  let r := { r with
    keyRecipeFile := r.keyRecipeFile.drop (m.currentItemNum * chunkHashSize)
    readKeyBuffer := keys ++ r.readKeyBuffer.drop keys.length }
  (readRecords m.currentItemNum m.data).zipIdx.foldl (retrieveChunk c methodType) r

/-- How `DataRetriever::Run` can end, or fail to: `waiting` is the state in which
no message is left and the final one has not come. -/
inductive RetrieverEnd
  | finished (r : Retriever)
  | waiting (r : Retriever)
  | exitFailure (message : String)
  deriving DecidableEq, Repr

/-- The receive loop. -/
def receiveLoop (c : Crypto) (methodType : DAEType) : List RestoreMsg → Retriever → RetrieverEnd
  | [], r => .waiting r
  | m :: msgs, r =>
      match m.messageType with
      | .serverRestoreChunk => receiveLoop c methodType msgs (processChunkBatch c methodType m r)
      | .serverRestoreFinal => .finished (processChunkBatch c methodType m r)
      | _ => .exitFailure "wrong recv msg type."

/-- `DataRetriever::Run`. -/
def dataRetrieverRun (c : Crypto) (methodType : DAEType) (fileRecipeHead : FileRecipeHead)
    (msgs : List RestoreMsg) (r : Retriever) : RetrieverEnd :=
  match receiveLoop c methodType msgs r with
  | .finished r =>
      if r.totalRecvChunkNum ≠ fileRecipeHead.totalChunkNum.toNat then
        .exitFailure "recv chunk num cannot match."
      else .finished r
  | other => other

/-- One message is counted by its header. -/
theorem processChunkBatch_total (c : Crypto) (methodType : DAEType) (m : RestoreMsg)
    (r : Retriever) :
    (processChunkBatch c methodType m r).totalRecvChunkNum =
      r.totalRecvChunkNum + m.currentItemNum := by
  have hfold : ∀ (l : List (Bytes × Nat)) (r : Retriever),
      (l.foldl (retrieveChunk c methodType) r).totalRecvChunkNum =
        r.totalRecvChunkNum + l.length := by
    intro l
    induction l with
    | nil => simp
    | cons x l ih =>
        intro r
        rw [List.foldl_cons, ih, List.length_cons]
        simp only [retrieveChunk]
        omega
  rw [processChunkBatch, hfold, List.length_zipIdx, length_readRecords]

/-- **The client ends with the final message**, having counted every message. -/
theorem receiveLoop_final (c : Crypto) (methodType : DAEType) {msgs : List RestoreMsg}
    (hmsgs : ∀ m ∈ msgs, m.messageType = .serverRestoreChunk) {last : RestoreMsg}
    (hlast : last.messageType = .serverRestoreFinal) (r : Retriever) :
    ∃ r', receiveLoop c methodType (msgs ++ [last]) r = .finished r' ∧
      r'.totalRecvChunkNum =
        r.totalRecvChunkNum + ((msgs ++ [last]).map RestoreMsg.currentItemNum).sum := by
  induction msgs generalizing r with
  | nil =>
      refine ⟨processChunkBatch c methodType last r, by simp [receiveLoop, hlast], ?_⟩
      simp [processChunkBatch_total]
  | cons m msgs ih =>
      obtain ⟨r', hrun, htotal⟩ := ih (fun m' hm' => hmsgs m' (List.mem_cons_of_mem _ hm'))
        (processChunkBatch c methodType m r)
      refine ⟨r', by simpa [receiveLoop, hmsgs m List.mem_cons_self] using hrun, ?_⟩
      rw [htotal, processChunkBatch_total, List.cons_append, List.map_cons, List.sum_cons]
      omega

theorem counts_of_carried {d : RestoreCodec} {msgs : List RestoreMsg}
    {groups : List (List Bytes)} (h : List.Forall₂ (Carries d) msgs groups) :
    msgs.map RestoreMsg.currentItemNum = groups.map List.length := by
  induction h with
  | nil => rfl
  | cons hm _ ih => rw [List.map_cons, List.map_cons, hm.count, ih]

/-- A restore stream brings the client to its end with all chunks. -/
theorem RestoreStream.retrieved {d : RestoreCodec} {n : Nat} {msgs : List RestoreMsg}
    {chunks : List Bytes} (h : RestoreStream d n msgs chunks) (c : Crypto) (methodType : DAEType)
    {head : FileRecipeHead} (hhead : head.totalChunkNum.toNat = chunks.length)
    (keyRecipeFile readKeyBuffer : Bytes) :
    ∃ r, dataRetrieverRun c methodType head msgs (.init keyRecipeFile readKeyBuffer) =
        .finished r ∧ r.totalRecvChunkNum = chunks.length := by
  obtain ⟨init, last, rfl, hlast, hinit⟩ := h.final
  obtain ⟨groups, hcarried, hchunks⟩ := h.carried
  have hsum : ((init ++ [last]).map RestoreMsg.currentItemNum).sum = chunks.length := by
    rw [counts_of_carried hcarried, ← hchunks, List.length_flatten]
  obtain ⟨r, hrun, htotal⟩ := receiveLoop_final c methodType hinit hlast
    (.init keyRecipeFile readKeyBuffer)
  have htotal' : r.totalRecvChunkNum = chunks.length := by
    rw [htotal, hsum]
    exact Nat.zero_add _
  refine ⟨r, ?_, htotal'⟩
  simp [dataRetrieverRun, hrun, htotal', hhead]

/-! ## When the two restores agree -/

/-- What a message says to its receiver. -/
def RestoreMsg.view (d : RestoreCodec) (m : RestoreMsg) : MessageType × List Bytes :=
  (m.messageType, readRecords m.currentItemNum (d.unwrap m.data))

/-- The recipe is a run of full requests and nothing else: it can be cut into
pieces each of which names, counting a container once for every recipe batch that
names it, exactly sixteen containers, the sixteenth by its last entry.  The empty
recipe is the case of no pieces. -/
def EndsAtFullRequest (batches : List (List RecipeEntry)) : Prop :=
  ∃ requests : List (List (Nat × ContainerID)),
    (∀ r ∈ requests, Cuts.Full containerCappingValue r) ∧
    requests.flatten = (tagged batches).map slotKey

/-- What the Baseline restore is meant to do: the messages `sent` say the same as
the Prototype's, carry every chunk and end with the final one, so that the client
ends having received them all. -/
structure RestoresAgree (p : Params) (sessionKey : Bytes) (sent enclaveSent : List RestoreMsg)
    (chunks : List Bytes) : Prop where
  same : sent.map (RestoreMsg.view baselineCodec) =
    enclaveSent.map (RestoreMsg.view (enclaveCodec p sessionKey))
  stream : RestoreStream baselineCodec p.sendChunkBatchSize sent chunks
  retrieved : ∀ (methodType : DAEType) (head : FileRecipeHead)
    (keyRecipeFile readKeyBuffer : Bytes),
    head.totalChunkNum.toNat = chunks.length →
    ∃ r, dataRetrieverRun p.crypto methodType head sent (.init keyRecipeFile readKeyBuffer) =
        .finished r ∧ r.totalRecvChunkNum = chunks.length

theorem view_msgOf {d : RestoreCodec} (messageType : MessageType) {cs : List Bytes}
    (h : ∀ c ∈ cs, c.length < 2 ^ 32) : (msgOf d messageType cs).view d = (messageType, cs) :=
  Prod.ext rfl (carries_msgOf messageType h).read

/-- What a finished stream says is determined by its groups. -/
theorem Finished.view {d : RestoreCodec} {n : Nat} {s : Restore} {gs : List (List Bytes)}
    {last : List Bytes} (h : Finished d n s gs last)
    (hfit : ∀ c ∈ gs.flatten ++ last, c.length < 2 ^ 32) :
    s.sent.map (RestoreMsg.view d) =
      gs.map (fun g => (MessageType.serverRestoreChunk, g)) ++ [(.serverRestoreFinal, last)] := by
  rw [h.sent, List.map_append, List.map_map, List.map_singleton]
  congr 1
  · apply List.map_congr_left
    intro g hg
    apply view_msgOf
    intro c hc
    exact hfit c (List.mem_append_left _ (List.mem_flatten.mpr ⟨g, hg, hc⟩))
  · rw [view_msgOf _ fun c hc => hfit c (List.mem_append_right _ hc)]

theorem processRecipeBatch_entriesToBytes (n : Nat) (fetch : ContainerID → Bytes)
    (es : List RecipeEntry) (s : Restore) :
    processRecipeBatch n fetch (entriesToBytes es)
      ((entriesToBytes es).length / recipeEntrySize) s = (do
        let r ← batchLoop baselineCodec n fetch s es
        return r.1) := by
  have hnum : (entriesToBytes es).length / recipeEntrySize = es.length := by
    rw [length_entriesToBytes]
    exact Nat.mul_div_cancel _ (by decide)
  simp only [processRecipeBatch, hnum, entriesOfBytes_entriesToBytes]

theorem baselineRestoreRun_entriesToBytes (n : Nat) (fetch : ContainerID → Bytes)
    (batches : List (List RecipeEntry)) :
    baselineRestoreRun n fetch (batches.map entriesToBytes) = (do
      let s ← batchesLoop baselineCodec n fetch batches
      processRecipeTailBatch n fetch s) := by
  simp only [baselineRestoreRun, batchesLoop, List.foldlM_map, processRecipeBatch_entriesToBytes]

/-- Nothing is left over exactly when the recipe is a run of full requests. -/
theorem DecodeInv.rest_nil_iff {d : RestoreCodec} {n : Nat} {fetch : ContainerID → Bytes}
    {s : Restore} {rs : List (List (Nat × RecipeEntry))} {rest : List (Nat × RecipeEntry)}
    (h : DecodeInv d n fetch s rs rest) {batches : List (List RecipeEntry)}
    (hseen : rs.flatten ++ rest = tagged batches) : rest = [] ↔ EndsAtFullRequest batches := by
  have hfull : ∀ r ∈ rs.map (List.map slotKey), Cuts.Full containerCappingValue r := by
    intro r hr
    obtain ⟨q, hq, rfl⟩ := List.mem_map.mp hr
    exact h.full q hq
  have hiff := Cuts.rest_eq_nil_iff hfull (h.idNum ▸ h.idNum_lt : Cuts.distinct _ < _)
  rw [← List.map_flatten, ← List.map_append, hseen, List.map_eq_nil_iff] at hiff
  exact hiff

/-- **`ProcessRecipeTailBatch`** ends the stream if an entry is left over, and
otherwise leaves the sent messages as they are: none of them is final. -/
theorem processRecipeTailBatch_spec {n : Nat} {fetch : ContainerID → Bytes} {s : Restore}
    {rs : List (List (Nat × RecipeEntry))} {rest : List (Nat × RecipeEntry)}
    (h : DecodeInv baselineCodec n fetch s rs rest) :
    ∃ s', processRecipeTailBatch n fetch s = .ok s' ∧
      (rest = [] → ∀ m ∈ s'.sent, m.messageType = .serverRestoreChunk) ∧
      (rest ≠ [] → ∃ gs last, Finished baselineCodec n s' gs last ∧ last ≠ [] ∧
        gs.flatten ++ last =
          (rs.flatten ++ rest).map fun t => recovered baselineCodec fetch t.2) := by
  unfold processRecipeTailBatch
  by_cases hrest : rest = []
  · rw [if_neg (not_not.mpr (h.collected_nil_iff.mpr hrest))]
    refine ⟨s, rfl, fun _ => ?_, fun hne => absurd hrest hne⟩
    obtain ⟨gs, _, _, hsent, _⟩ := h.stream
    intro m hm
    rw [hsent] at hm
    obtain ⟨g, _, rfl⟩ := List.mem_map.mp hm
    rfl
  · have hne : s.enclaveRecipeBuffer ≠ [] := fun hnil => hrest (h.collected_nil_iff.mp hnil)
    rw [if_pos hne]
    obtain ⟨s', gs, last, hrun, hfin⟩ := h.tailLoop hne
    exact ⟨s', hrun, fun h => absurd h hrest, fun _ => ⟨gs, last, hfin⟩⟩

/-- **When the Baseline restore is the Prototype's.**  Over containers from which
both recover the same chunks, and for every split of the recipe into batches, the
Baseline does what it is meant to do exactly when the recipe does not end at a full
request. -/
theorem baseline_restore_agrees_iff (p : Params) (fetch baselineFetch : ContainerID → Bytes)
    (sessionKey masterKey : Bytes) (batches : List (List RecipeEntry))
    (hsame : ∀ e ∈ batches.flatten, recovered baselineCodec baselineFetch e =
      recovered (enclaveCodec p sessionKey) fetch e) :
    ∃ s enclave,
      baselineRestoreRun p.sendChunkBatchSize baselineFetch (batches.map entriesToBytes) = .ok s ∧
      restoreRun p fetch sessionKey masterKey (batches.map (recipePiece p masterKey)) =
        .ok enclave ∧
      (RestoresAgree p sessionKey s.sent enclave.sent
        (batches.flatten.map (recovered baselineCodec baselineFetch)) ↔
        ¬ EndsAtFullRequest batches) := by
  obtain ⟨sb, rsb, restb, hrunb, hseenb, hinvb⟩ :=
    batchesLoop_spec baselineCodec baselineFetch p.sendChunkBatchSize_pos batches
  obtain ⟨se, rse, reste, hrune, hseene, hinve⟩ :=
    batchesLoop_spec (enclaveCodec p sessionKey) fetch p.sendChunkBatchSize_pos batches
  obtain ⟨s, htailb, hopen, hleft⟩ := processRecipeTailBatch_spec hinvb
  obtain ⟨enclave, ge, le, htaile, hfine, hle, hchunkse⟩ := procRecipeTailBatch_spec hinve
  refine ⟨s, enclave, ?_, ?_, ?_, ?_⟩
  · rw [baselineRestoreRun_entriesToBytes, hrunb]
    exact htailb
  · rw [restoreRun_recipePieces, hrune]
    exact htaile
  · -- at a full request no final message is sent
    intro hagree hend
    obtain ⟨init, last, hsent, hlast, _⟩ := hagree.stream.final
    have hchunk := hopen ((hinvb.rest_nil_iff hseenb).mpr hend) last (by rw [hsent]; simp)
    rw [hlast] at hchunk
    cases hchunk
  · intro hend
    have hrestb : restb ≠ [] := fun h => hend ((hinvb.rest_nil_iff hseenb).mp h)
    have hreste : reste ≠ [] := fun h => hend ((hinve.rest_nil_iff hseene).mp h)
    obtain ⟨gb, lb, hfinb, hlb, hchunksb⟩ := hleft hrestb
    have hb : gb.flatten ++ lb = batches.flatten.map (recovered baselineCodec baselineFetch) := by
      rw [hchunksb, hseenb, ← map_snd_tagged, List.map_map]
      rfl
    have he : ge.flatten ++ le = batches.flatten.map (recovered baselineCodec baselineFetch) := by
      rw [hchunkse, hseene, List.map_congr_left hsame, ← map_snd_tagged, List.map_map]
      rfl
    have hfit : ∀ c ∈ batches.flatten.map (recovered baselineCodec baselineFetch),
        c.length < 2 ^ 32 := by
      intro c hc
      obtain ⟨e, _, rfl⟩ := List.mem_map.mp hc
      exact length_recovered_lt _ _ _
    have hstream := hfinb.restoreStream hb hfit
    refine ⟨?_, hstream, fun methodType head keyRecipeFile readKeyBuffer hhead =>
      hstream.retrieved p.crypto methodType hhead keyRecipeFile readKeyBuffer⟩
    obtain ⟨hg, hl⟩ := Cuts.groups_unique hfinb.full hfinb.last_le hlb hfine.full hfine.last_le
      (hle hreste) (hb.trans he.symm)
    rw [hfinb.view (hb ▸ hfit), hfine.view (he ▸ hfit), hg, hl]

/-- A recipe entry for the one-byte chunk in container `i`. -/
def smallEntry (i : Nat) : RecipeEntry where
  containerName := smallParams.uuid i
  offset := 0
  length := 1

/-- A container of the Prototype with the chunk `A`, encrypted, and its IV. -/
def smallFetch (_ : ContainerID) : Bytes :=
  maskBytes smallParams.enclaveKey [0x41] ++ IV.toBytes ⟨0, 0⟩

/-- A container of the Baseline with the chunk `A`. -/
def smallBaselineFetch (_ : ContainerID) : Bytes :=
  [0x41]

/-- A recipe of one entry does not end at a full request, and is restored. -/
theorem baseline_restore_agrees_iff_small :
    ∃ s enclave,
      baselineRestoreRun 2 smallBaselineFetch [entriesToBytes [smallEntry 0]] = .ok s ∧
      restoreRun smallParams smallFetch [3] [4] [recipePiece smallParams [4] [smallEntry 0]] =
        .ok enclave ∧
      RestoresAgree smallParams [3] s.sent enclave.sent [[0x41]] := by
  obtain ⟨s, enclave, hs, he, hiff⟩ := baseline_restore_agrees_iff smallParams smallFetch
    smallBaselineFetch [3] [4] [[smallEntry 0]] (by decide)
  refine ⟨s, enclave, hs, he, hiff.mpr ?_⟩
  intro hend
  obtain ⟨requests, hfull, hflat⟩ := hend
  cases requests with
  | nil => cases hflat
  | cons r requests =>
      have hcard : r.length ≤ 1 := by
        have hlen := congrArg List.length hflat
        simp only [List.flatten_cons, List.length_append, List.length_map] at hlen
        have hone : (tagged [[smallEntry 0]]).length = 1 := by decide
        omega
      have hdistinct : Cuts.distinct r = 16 := (hfull r List.mem_cons_self).1
      have hle := r.toFinset_card_le
      rw [Cuts.distinct] at hdistinct
      omega

/-- Seventeen entries for sixteen containers, the sixteenth in the last entry. -/
def sixteenContainers : List RecipeEntry :=
  smallEntry 0 :: (List.range containerCappingValue).map smallEntry

set_option maxRecDepth 8000 in
/-- The last entry brings the sixteenth container: the Baseline sends sixteen of
the seventeen chunks and no final message, and its client goes on waiting. -/
theorem baseline_restore_stalls :
    (∀ e ∈ sixteenContainers, recovered baselineCodec smallBaselineFetch e =
      recovered (enclaveCodec smallParams [3]) smallFetch e) ∧
    ∃ s enclave r,
      baselineRestoreRun 2 smallBaselineFetch [entriesToBytes sixteenContainers] = .ok s ∧
      restoreRun smallParams smallFetch [3] [4] [recipePiece smallParams [4] sixteenContainers] =
        .ok enclave ∧
      s.sent.map (RestoreMsg.view baselineCodec) ≠
        enclave.sent.map (RestoreMsg.view (enclaveCodec smallParams [3])) ∧
      (∀ m ∈ s.sent, m.messageType ≠ .serverRestoreFinal) ∧
      dataRetrieverRun maskCrypto .plain ⟨17, 17⟩ s.sent (.init [] []) = .waiting r ∧
      r.totalRecvChunkNum = 16 := by
  refine ⟨by decide, _, _, _, rfl, rfl, by decide, by decide, rfl, by decide⟩

end Debe
