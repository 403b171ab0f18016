import Debe.KeyAlignment
import Debe.PlainSessions
import Debe.RecipeConfigs

/-!
# A file through the Baseline

The client encrypts the chunks of a file and sends them with their recipe; the server stores
them among those of other sessions, before and after; a restore reads the recipe, fetches the
containers and sends the chunks back, in other batches; the client decrypts them with the keys it
kept.  What it hands to its writer are the chunks of the file.

There are two exceptions, both of them shown elsewhere: the recipe may end where a request of the
restore is full, and a chunk may be stored raw although its bytes are a block.
-/

namespace Debe

open Records FrameBuffer

variable {bp : BaselineParams} {methodType : DAEType} {most : Nat} {s s' : BaselineSender}

/-! ## The messages of an upload -/

/-- The end of the recipe has not been sent. -/
def BaselineSender.Open (s : BaselineSender) : Prop :=
  ∀ m ∈ s.sent, m.messageType ≠ .clientUploadRecipeEnd

/-- Encrypting sends nothing. -/
theorem sealPlainChunks_sent (hrun : sealPlainChunks bp methodType s = .ok s') :
    s'.sent = s.sent := by
  unfold sealPlainChunks at hrun
  split at hrun
  · obtain ⟨batch, -, hrun⟩ := Loops.bind_eq_ok.mp hrun
    obtain ⟨recipe, -, hrun⟩ := Loops.bind_eq_ok.mp hrun
    cases hrun
    rfl
  · cases hrun
    rfl

theorem BaselineSender.Open.sendRecipes (h : s.Open) (c : Prop) [Decidable c] :
    (if c then sendBaselineRecipes s else s).Open := by
  split
  · intro m hm
    rcases List.mem_append.mp hm with hm | hm
    · exact h m hm
    · rw [List.mem_singleton.mp hm]
      exact nofun
  · exact h

theorem BaselineSender.Open.sendChunks (h : s.Open) (c : Prop) [Decidable c] :
    (if c then sendBaselineChunks s else s).Open := by
  split
  · intro m hm
    rcases List.mem_append.mp hm with hm | hm
    · exact h m hm
    · rw [List.mem_singleton.mp hm]
      exact nofun
  · exact h

theorem BaselineSender.Open.seal (h : s.Open) (hrun : sealPlainChunks bp methodType s = .ok s') :
    s'.Open := by
  unfold BaselineSender.Open
  rw [sealPlainChunks_sent hrun]
  exact h

/-- A chunk. -/
theorem BaselineSender.Open.addChunk {chunk : Chunk} (h : s.Open)
    (hrun : addChunk bp methodType s chunk = .ok s') : s'.Open := by
  obtain ⟨plain, -, hrun⟩ := Loops.bind_eq_ok.mp hrun
  dsimp only at hrun
  split at hrun
  · obtain ⟨s₁, hsend, hrun⟩ := Loops.bind_eq_ok.mp hrun
    obtain ⟨s₂, hseal, hsend⟩ := Loops.bind_eq_ok.mp hsend
    cases hrun
    cases hsend
    have h₂ : s₂.Open := h.seal (s := { s with plain := plain }) hseal
    exact (h₂.sendRecipes _).sendChunks _
  · cases hrun
    exact h

theorem prefix_of_write_zero {buf data buf' : Bytes} (h : Buffer.write buf 0 data = some buf') :
    data <+: buf' :=
  Buffer.prefix_of_write (List.nil_prefix : [] <+: buf) h

/-- **The end of the recipe** is the last message. -/
theorem finishUpload_sent {recipeHead : FileRecipeHead} (h : s.Open)
    (hrun : finishUpload bp methodType s recipeHead = .ok s') :
    ∃ body m, s'.sent = body ++ [m] ∧ (∀ m ∈ body, m.messageType ≠ .clientUploadRecipeEnd) ∧
      m.messageType = .clientUploadRecipeEnd ∧ m.data = recipeHead.toBytes := by
  obtain ⟨s₁, hseal, hrun⟩ := Loops.bind_eq_ok.mp hrun
  obtain ⟨dataBuffer, hwrite, hrun⟩ := Loops.bind_eq_ok.mp hrun
  cases hrun
  refine ⟨_, _, rfl, ((h.seal hseal).sendRecipes _).sendChunks _, rfl, ?_⟩
  obtain ⟨behind, rfl⟩ := prefix_of_write_zero (inRange_eq_ok.mp hwrite)
  have hsize : (UInt32.ofNat fileRecipeHeadSize).toNat = recipeHead.toBytes.length := by
    rw [recipeHead.length_toBytes]
    rfl
  simp only [baselineMsg, FrameBuffer.payload, hsize, List.take_left]

/-- What a whole upload sends. -/
theorem baselineSenderRun_sent {heap : Nat → UInt8} {chunks : List Chunk}
    {recipeHead : FileRecipeHead}
    (hrun : baselineSenderRun bp methodType heap (uploadItems chunks recipeHead) = .ok s) :
    ∃ body m, s.sent = body ++ [m] ∧ (∀ m ∈ body, m.messageType ≠ .clientUploadRecipeEnd) ∧
      m.messageType = .clientUploadRecipeEnd ∧ m.data = recipeHead.toBytes := by
  rw [baselineSenderRun, uploadItems, List.foldlM_append, List.foldlM_map] at hrun
  obtain ⟨s₁, hchunks, hend⟩ := Loops.bind_eq_ok.mp hrun
  have hopen : s₁.Open := Loops.foldlM_keeps (P := BaselineSender.Open)
    (fun m hm => absurd hm List.not_mem_nil) (fun s c s' h hbody => h.addChunk hbody) hchunks
  exact finishUpload_sent hopen (Loops.foldlM_singleton_ok.mp hend)

/-! ## The session of an upload -/

variable {session : PlainSession} {recipeHead : FileRecipeHead}

/-- The session in which the server receives what a client sent. -/
theorem session_of_upload
    (hmsgs : session.msgs.map Prod.fst = s.sent)
    (hsent : ∃ body m, s.sent = body ++ [m] ∧
      (∀ m ∈ body, m.messageType ≠ .clientUploadRecipeEnd) ∧
      m.messageType = .clientUploadRecipeEnd ∧ m.data = recipeHead.toBytes) :
    session.Orderly ∧ session.recipeEnd = some recipeHead := by
  obtain ⟨body, m, hcut, hbody, hm, hdata⟩ := hsent
  obtain ⟨init, last, hsplit, rfl, hlast⟩ := List.map_eq_append_iff.mp (hmsgs.trans hcut)
  obtain ⟨e, rfl, rfl⟩ : ∃ e, last = [e] ∧ e.1 = m := by
    obtain ⟨e, rest, rfl, he, hrest⟩ := List.map_eq_cons_iff.mp hlast
    exact ⟨e, by rw [List.map_eq_nil_iff.mp hrest], he⟩
  refine ⟨?_, ?_⟩
  · unfold PlainSession.Orderly
    rw [hsplit, List.dropLast_concat]
    exact fun m hm => hbody m.1 (List.mem_map_of_mem hm)
  · have hhead : endHead e = recipeHead := by
      have hbytes : memBytes (recvMemory e.1.data e.2) 0 fileRecipeHeadSize = e.1.data := by
        rw [memBytes_recvMemory (by rw [hdata, recipeHead.length_toBytes]; rfl), List.drop_zero,
          hdata, List.take_of_length_le (le_of_eq recipeHead.length_toBytes)]
      rw [endHead, hbytes, hdata, recipeHead.ofBytes_toBytes]
    simp [PlainSession.recipeEnd, hsplit, hm, hhead]

/-- Messages of batches that can be counted bring the ciphertexts. -/
theorem plainChunks_of_batches {msgs : List (BaselineMsg × (Nat → UInt8))}
    {groups : List (List KeyedChunk)}
    (hchunks : (msgs.map Prod.fst).filter (fun m => m.messageType = .clientUploadChunk) =
      groups.map (cipherMsg bp methodType))
    (hfit : ∀ g ∈ groups, (frames (g.map KeyedChunk.chunk)).length < 2 ^ 32) :
    msgs.flatMap plainChunks = ciphertexts bp methodType groups.flatten := by
  induction msgs generalizing groups with
  | nil =>
      have hnil : groups = [] := List.map_eq_nil_iff.mp hchunks.symm
      rw [hnil]
      rfl
  | cons m msgs ih =>
      rw [List.map_cons] at hchunks
      by_cases hm : m.1.messageType = .clientUploadChunk
      · rw [List.filter_cons_of_pos (by simpa using hm)] at hchunks
        obtain ⟨g, groups, rfl, hg, hrest⟩ := List.map_eq_cons_iff.mp hchunks.symm
        have hfirst : plainChunks m = ciphertexts bp methodType g := by
          simp only [plainChunks, hm]
          rw [← hg]
          exact chunks_cipherMsg (hfit g List.mem_cons_self) m.2
        rw [List.flatMap_cons, hfirst, ih hrest.symm fun g hg => hfit g (List.mem_cons_of_mem _ hg),
          List.flatten_cons, ciphertexts, ciphertexts, ciphertexts, List.map_append]
      · rw [List.filter_cons_of_neg (by simpa using hm)] at hchunks
        have hnone : plainChunks m = [] := by
          unfold plainChunks
          split
          · rename_i h
            exact absurd h hm
          · rfl
        rw [List.flatMap_cons, hnone, ih hchunks hfit, List.nil_append]

/-- The session of an upload brings its ciphertexts. -/
theorem UploadDone.session_chunks {chunks : List Bytes} {groups : List (List KeyedChunk)}
    (hdone : UploadDone bp methodType (2 ^ 32 - 1) chunks groups s)
    (hmsgs : session.msgs.map Prod.fst = s.sent) :
    session.chunks = ciphertexts bp methodType groups.flatten :=
  plainChunks_of_batches (hmsgs ▸ hdone.chunkMsgs) fun g hg =>
    Nat.lt_of_le_of_lt (hdone.batches g hg) (by decide)

/-! ## The restore -/

/-- The receive loop of a stream is a run over its batches. -/
theorem receiveLoop_retrieveAll (c : Crypto) (methodType : DAEType) {msgs : List RestoreMsg}
    (hmsgs : ∀ m ∈ msgs, m.messageType = .serverRestoreChunk) {last : RestoreMsg}
    (hlast : last.messageType = .serverRestoreFinal) (r : Retriever) :
    receiveLoop c methodType (msgs ++ [last]) r =
      .finished (retrieveAll c methodType (msgs ++ [last]) r) := by
  induction msgs generalizing r with
  | nil => simp [receiveLoop, hlast, retrieveAll]
  | cons m msgs ih =>
      have hm := hmsgs m List.mem_cons_self
      rw [List.cons_append, retrieveAll, List.foldl_cons, ← retrieveAll,
        ← ih fun m' hm' => hmsgs m' (List.mem_cons_of_mem _ hm')]
      simp only [receiveLoop, hm]

/-- A stream of ciphertexts whose keys are in the file gives the chunks back. -/
theorem RestoreStream.decrypted {n : Nat} {msgs : List RestoreMsg} {ks : List KeyedChunk}
    (h : RestoreStream baselineCodec n msgs (ciphertexts bp methodType ks))
    (hhead : recipeHead.totalChunkNum.toNat = ks.length) (readKeyBuffer : Bytes) :
    ∃ r, dataRetrieverRun bp.crypto methodType recipeHead msgs
        (.init (ks.flatMap KeyedChunk.key) readKeyBuffer) = .finished r ∧
      r.outputMQ = ks.map KeyedChunk.chunk := by
  have hcount : recipeHead.totalChunkNum.toNat = (ciphertexts bp methodType ks).length := by
    rw [hhead, ciphertexts, List.length_map]
  obtain ⟨r, hrun, -⟩ := h.retrieved bp.crypto methodType hcount
    (ks.flatMap KeyedChunk.key) readKeyBuffer
  obtain ⟨init, last, rfl, hlast, hinit⟩ := h.final
  obtain ⟨gs, hcarried, hgs⟩ := h.carried
  obtain ⟨hout, -⟩ := restore_keyed (r := .init (ks.flatMap KeyedChunk.key) readKeyBuffer)
    hcarried hgs rfl
  have hloop := receiveLoop_retrieveAll bp.crypto methodType hinit hlast
    (.init (ks.flatMap KeyedChunk.key) readKeyBuffer)
  refine ⟨r, hrun, ?_⟩
  unfold dataRetrieverRun at hrun
  rw [hloop] at hrun
  dsimp only at hrun
  split at hrun
  · cases hrun
  · obtain rfl := RetrieverEnd.finished.inj hrun
    exact hout

/-- What `RecvDecoder` reads at a time, as entries. -/
def recipeReads (b : Nat) (file : Bytes) : List (List RecipeEntry) :=
  (pieces (recipeEntrySize * b) (file.drop fileRecipeHeadSize)).map fun bs =>
    entriesOfBytes (bs.length / recipeEntrySize) bs

theorem entriesToBytes_injective {es es' : List RecipeEntry}
    (h : entriesToBytes es = entriesToBytes es') : es = es' := by
  have hlen : es.length = es'.length := by
    have hbytes := congrArg List.length h
    rw [length_entriesToBytes, length_entriesToBytes] at hbytes
    exact Nat.eq_of_mul_eq_mul_right (by decide) hbytes
  rw [← entriesOfBytes_entriesToBytes es, h, hlen, entriesOfBytes_entriesToBytes]

/-- **The reads** are the bytes of their entries, and these the entries of the file. -/
theorem recipeReads_spec {b : Nat} (hb : 0 < b) (head : FileRecipeHead)
    (addrs : List RecipeEntry) :
    (recipeReads b (head.toBytes ++ entriesToBytes addrs)).map entriesToBytes =
        pieces (recipeEntrySize * b) (entriesToBytes addrs) ∧
      (recipeReads b (head.toBytes ++ entriesToBytes addrs)).flatten = addrs := by
  have hn : 0 < recipeEntrySize * b := Nat.mul_pos (by decide) hb
  have hdrop : (head.toBytes ++ entriesToBytes addrs).drop fileRecipeHeadSize =
      entriesToBytes addrs := by
    rw [← head.length_toBytes, List.drop_left]
  have hbody : recipeEntrySize ∣ (entriesToBytes addrs).length := by
    rw [length_entriesToBytes]
    exact Nat.dvd_mul_left _ _
  have hreads : (recipeReads b (head.toBytes ++ entriesToBytes addrs)).map entriesToBytes =
      pieces (recipeEntrySize * b) (entriesToBytes addrs) := by
    rw [recipeReads, hdrop, List.map_map]
    refine (List.map_congr_left fun bs hbs => ?_).trans (List.map_id _)
    have hdvd := dvd_length_of_mem_pieces hn (Nat.dvd_mul_right _ _) hbody bs hbs
    exact entriesToBytes_entriesOfBytes (Nat.div_mul_cancel hdvd).symm
  refine ⟨hreads, entriesToBytes_injective ?_⟩
  rw [entriesToBytes_flatten, hreads, flatten_pieces hn]

/-- **A restore** of chunks that its addresses give back is a stream of them, unless the recipe
ends at a full request. -/
theorem baselineRestoreRun_stream {n b : Nat} (hn : 0 < n) (hb : 0 < b) {d : Disk}
    {head : FileRecipeHead} {addrs : List RecipeEntry} {chunks : List Bytes}
    (haddrs : List.Forall₂ (fun c a => recovered baselineCodec (fetchContainer d) a = c)
      chunks addrs)
    (hend : ¬ EndsAtFullRequest (recipeReads b (head.toBytes ++ entriesToBytes addrs))) :
    ∃ restore, baselineRestoreRun n (fetchContainer d)
        (pieces (recipeEntrySize * b) (entriesToBytes addrs)) = .ok restore ∧
      RestoreStream baselineCodec n restore.sent chunks := by
  obtain ⟨hreads, hflat⟩ := recipeReads_spec hb head addrs
  obtain ⟨s, rs, rest, hrun, hseen, hinv⟩ := batchesLoop_spec baselineCodec (fetchContainer d) hn
    (recipeReads b (head.toBytes ++ entriesToBytes addrs))
  obtain ⟨restore, htail, -, hleft⟩ := processRecipeTailBatch_spec hinv
  obtain ⟨gs, last, hfinished, -, hgroups⟩ :=
    hleft fun hnil => hend ((hinv.rest_nil_iff hseen).mp hnil)
  have hchunks : addrs.map (recovered baselineCodec (fetchContainer d)) = chunks := by
    have hmap := List.forall₂_map_right_iff.mpr
      (haddrs.imp fun c a h => h.symm : List.Forall₂
        (fun c a => c = recovered baselineCodec (fetchContainer d) a) chunks addrs)
    exact (List.forall₂_eq_eq_eq ▸ hmap : chunks = _).symm
  refine ⟨restore, ?_, hfinished.restoreStream ?_ ?_⟩
  · rw [← hreads, baselineRestoreRun_entriesToBytes, hrun]
    exact htail
  · have hall : ∀ ts : List (Nat × RecipeEntry),
        ts.map (fun t => recovered baselineCodec (fetchContainer d) t.2) =
          (ts.map Prod.snd).map (recovered baselineCodec (fetchContainer d)) := by
      intro ts
      rw [List.map_map]
      rfl
    rw [hgroups, hseen, hall, map_snd_tagged, hflat, hchunks]
  · intro c hc
    rw [← hchunks] at hc
    obtain ⟨a, -, rfl⟩ := List.mem_map.mp hc
    exact length_recovered_lt _ _ _

/-! ## From the file to the file -/

/-- No two chunks among those received have a fingerprint in common with one of these. -/
def NoCollision (p : Params) (chunks received : List Bytes) : Prop :=
  ∀ c ∈ chunks, ∀ c' ∈ received, p.crypto.generateHash c' = p.crypto.generateHash c → c' = c

/-- An address at which the payload of a chunk lies gives the chunk back. -/
theorem PlainRestorable.recovered {p : Params} {d : Disk} {received : List Bytes} {c : Bytes}
    {a : RecipeEntry} (h : PlainRestorable p d received c a) (hsized : Sized c)
    (hcollision : ∀ c' ∈ received, p.crypto.generateHash c' = p.crypto.generateHash c → c' = c)
    (hsafe : CodecSafe p c) : recovered baselineCodec (fetchContainer d) a = c := by
  obtain ⟨c', hc', hhash, body, hbody, hslice⟩ := h
  obtain rfl := hcollision c' hc' hhash
  have hfetch : fetchContainer d a.containerName = body := by
    rw [fetchContainer, hbody, Option.getD_some]
  change decompressOrKeep (((fetchContainer d a.containerName).drop a.offset.toNat).take
    a.length.toNat) = c'
  rw [hfetch, hslice]
  exact (decompressOrKeep_payload hsized.1 hsized.2).mpr hsafe

/-- The ciphertexts of chunks are as long as the chunks. -/
theorem sized_ciphertexts {ks : List KeyedChunk} (h : ∀ k ∈ ks, Sized k.chunk) :
    ∀ c ∈ ciphertexts bp methodType ks, Sized c := by
  intro c hc
  obtain ⟨k, hk, rfl⟩ := List.mem_map.mp hc
  have hlen : (k.encrypted (ciphertext bp methodType)).length = k.chunk.length :=
    length_ciphertext bp methodType k.key k.chunk
  obtain ⟨hne, hle⟩ := h k hk
  refine ⟨?_, hlen ▸ hle⟩
  intro hnil
  rw [hnil] at hlen
  exact hne (List.length_eq_zero_iff.mp hlen.symm)

/-- The session of an upload of nonempty chunks brings chunks of legal sizes. -/
theorem UploadDone.sized_session {chunks : List Chunk} {groups : List (List KeyedChunk)}
    (hdone : UploadDone bp methodType (2 ^ 32 - 1) (chunks.map (·.val)) groups s)
    (hmsgs : session.msgs.map Prod.fst = s.sent) (hnonempty : ∀ c ∈ chunks, c.val ≠ []) :
    ∀ c ∈ session.chunks, Sized c := by
  rw [hdone.session_chunks hmsgs]
  refine sized_ciphertexts fun k hk => ?_
  have hmem : k.chunk ∈ chunks.map (·.val) := hdone.chunks ▸ List.mem_map_of_mem hk
  obtain ⟨c, hc, hval⟩ := List.mem_map.mp hmem
  exact ⟨hval ▸ hnonempty c hc, hval ▸ c.property⟩

/-- **Upload and restore through the Baseline.**  For every scheme and every file, cut into chunks
whose batches the header can count: the client's upload does not fail; the server, which may have
served any orderly sessions before and serves any others afterwards, of completed or broken
uploads and under other names, runs through; and if the names it drew are fresh, a restore, in
whatever batches of chunks and of recipe entries, makes the client push the chunks of the file.
It takes that no received chunk collides with one of the file, that none of the file is stored
raw and decodes to something else, and that the recipe does not end at a full request. -/
theorem baseline_upload_restore (bp : BaselineParams) (p : Params) (methodType : DAEType)
    (heap : Nat → UInt8) (chunks : List Chunk) (recipeHead : FileRecipeHead)
    (hfit : BatchesFit bp.sendChunkBatchSize (chunks.map (·.val)))
    (hnonempty : ∀ c ∈ chunks, c.val ≠ [])
    (hhead : recipeHead.totalChunkNum.toNat = chunks.length) :
    ∃ sender, baselineSenderRun bp methodType heap (uploadItems chunks recipeHead) = .ok sender ∧
      ∀ (pre post : List PlainSession) (session : PlainSession),
        session.msgs.map Prod.fst = sender.sent →
        (∀ s ∈ pre ++ post, s.Orderly) →
        (∀ c ∈ receivedChunks (pre ++ post), Sized c) →
        (∀ s ∈ post, s.recipePath ≠ session.recipePath) →
        NoCollision p session.chunks (receivedChunks (pre ++ session :: post)) →
        (∀ c ∈ session.chunks, CodecSafe p c) →
        ∃ srv, runPlainSessions p .init (pre ++ session :: post) = .ok srv ∧
          (FreshNames p srv.disk.draws →
            ∃ file addrs, srv.recipes.lookup session.recipePath = some file ∧
              file = recipeHead.toBytes ++ entriesToBytes addrs ∧
              addrs.length = chunks.length ∧
              ∀ (n b : Nat) (readKeyBuffer : Bytes), 0 < n → 0 < b →
                ¬ EndsAtFullRequest (recipeReads b file) →
                ∃ restore r, baselineRestoreRun n (fetchContainer srv.disk)
                    (pieces (recipeEntrySize * b) (file.drop fileRecipeHeadSize)) =
                      .ok restore ∧
                  dataRetrieverRun bp.crypto methodType recipeHead restore.sent
                    (.init sender.dae.keyRecipeFile readKeyBuffer) = .finished r ∧
                  r.outputMQ = chunks.map (·.val)) := by
  have hbatches : BatchesLE bp.sendChunkBatchSize (2 ^ 32 - 1) (chunks.map (·.val)) :=
    fun k => Nat.le_pred_of_lt (hfit k)
  obtain ⟨sender, groups, hsend, hdone⟩ :=
    baselineSenderRun_ok methodType (by decide) heap hbatches recipeHead
  refine ⟨sender, hsend, ?_⟩
  intro pre post session hmsgs horderly hsized hpaths hcollision hsafe
  obtain ⟨hsession, hend⟩ := session_of_upload hmsgs (baselineSenderRun_sent hsend)
  have hchunks := hdone.session_chunks hmsgs
  have hown := hdone.sized_session hmsgs hnonempty
  have hall : ∀ c ∈ receivedChunks (pre ++ session :: post), Sized c := by
    intro c hc
    simp only [receivedChunks, List.flatMap_append, List.flatMap_cons, List.mem_append]
      at hc hsized
    rcases hc with hc | hc | hc
    · exact hsized c (.inl hc)
    · exact hown c hc
    · exact hsized c (.inr hc)
  have horder : ∀ s ∈ pre ++ session :: post, s.Orderly := by
    intro s hs
    simp only [List.mem_append, List.mem_cons] at hs horderly
    rcases hs with hs | rfl | hs
    · exact horderly s (.inl hs)
    · exact hsession
    · exact horderly s (.inr hs)
  obtain ⟨srv, hrun, hright⟩ := runPlainSessions_recipes p horder
  refine ⟨srv, hrun, fun hfresh => ?_⟩
  obtain ⟨addrs, haddrs, hrecipe, -⟩ := hright pre session post rfl hpaths
  have hrestorable := (runPlainSessions_inv hall hrun).restorable hfresh haddrs
  have hfile : session.recipe p addrs = recipeHead.toBytes ++ entriesToBytes addrs := by
    simp only [PlainSession.recipe, hend]
  have hdrop : (session.recipe p addrs).drop fileRecipeHeadSize = entriesToBytes addrs := by
    rw [hfile, ← recipeHead.length_toBytes, List.drop_left]
  have hcount : groups.flatten.length = chunks.length := by
    have hlen := congrArg List.length hdone.chunks
    rwa [List.length_map, List.length_map] at hlen
  refine ⟨_, addrs, hrecipe, hfile, ?_, ?_⟩
  · rw [← hrestorable.length_eq, hchunks, ciphertexts, List.length_map, hcount]
  · intro n b readKeyBuffer hn hb hopen
    have hgood : ∀ c ∈ session.chunks, Sized c ∧
        (∀ c' ∈ receivedChunks (pre ++ session :: post),
          p.crypto.generateHash c' = p.crypto.generateHash c → c' = c) ∧ CodecSafe p c :=
      fun c hc => ⟨hown c hc, hcollision c hc, hsafe c hc⟩
    have hback : List.Forall₂
        (fun c a => recovered baselineCodec (fetchContainer srv.disk) a = c) session.chunks
        addrs :=
      ((List.forall₂_and_left _ _).mpr ⟨hgood, hrestorable⟩).imp fun c a h =>
        PlainRestorable.recovered h.2 h.1.1 h.1.2.1 h.1.2.2
    obtain ⟨restore, hrestore, hstream⟩ := baselineRestoreRun_stream hn hb hback (hfile ▸ hopen)
    rw [hchunks] at hstream
    obtain ⟨r, hretrieve, hout⟩ :=
      hstream.decrypted (hhead.trans hcount.symm) readKeyBuffer
    refine ⟨restore, r, hdrop ▸ hrestore, ?_, hout.trans hdone.chunks⟩
    rw [hdone.keyRecipeFile]
    exact hretrieve

/-- Fewer entries than a request names containers, but some, do not end at a full request. -/
theorem not_endsAtFullRequest {batches : List (List RecipeEntry)} (hne : batches.flatten ≠ [])
    (hlt : batches.flatten.length < containerCappingValue) : ¬ EndsAtFullRequest batches := by
  have hlen : ((tagged batches).map slotKey).length = batches.flatten.length := by
    rw [← map_snd_tagged, List.length_map, List.length_map]
  rintro ⟨requests, hfull, hflat⟩
  cases requests with
  | nil =>
      rw [← hflat, List.flatten_nil, List.length_nil] at hlen
      exact hne (List.length_eq_zero_iff.mp hlen.symm)
  | cons r requests =>
      have hdistinct : Cuts.distinct r = containerCappingValue := (hfull r List.mem_cons_self).1
      have hcard : Cuts.distinct r ≤ r.length := r.toFinset_card_le
      have hpart : r.length ≤ batches.flatten.length := by
        rw [← hlen, ← hflat, List.flatten_cons, List.length_append]
        exact Nat.le_add_right _ _
      omega

/-- The upload of the chunks `A` and `D` under `PlainDAE`, as the server receives it. -/
def smallUploadSession : PlainSession where
  recipePath := [9]
  virtualRecipeEnd := ⟨0, 0⟩
  msgs := [smallChunkMsg [[0x41], [0x44]],
    ({ messageType := .clientUploadRecipe
       currentItemNum := 2
       dataSize := 128
       data := [[0x41], [0x44]].flatMap fun c =>
         List.replicate chunkHashSize 1 ++ smallBaseline.crypto.generateHash c }, fun _ => 0),
    smallRecipeEnd 2 2]

/-- The server got the chunk `A` from an upload that broke off, and restores it with `D`. -/
theorem baseline_upload_restore_small :
    ∃ sender srv file restore r,
      baselineSenderRun smallBaseline .plain (fun _ => 0)
        (uploadItems [⟨[0x41], by decide⟩, ⟨[0x44], by decide⟩] ⟨2, 2⟩) = .ok sender ∧
      runPlainSessions smallParams .init
        (smallPlainSessions.take 1 ++ [smallUploadSession]) = .ok srv ∧
      srv.recipes.lookup [9] = some file ∧
      baselineRestoreRun 2 (fetchContainer srv.disk) (pieces 16 (file.drop 16)) =
        .ok restore ∧
      dataRetrieverRun smallBaseline.crypto .plain ⟨2, 2⟩ restore.sent
        (.init sender.dae.keyRecipeFile []) = .finished r ∧
      r.outputMQ = [[0x41], [0x44]] := by
  obtain ⟨sender, hsend, hserve⟩ := baseline_upload_restore smallBaseline smallParams .plain
    (fun _ => 0) [⟨[0x41], by decide⟩, ⟨[0x44], by decide⟩] ⟨2, 2⟩
    (batchesFit_of_chunkBufferSize (p := smallBaseline) (by decide) _) (by decide) rfl
  have hsent : (match baselineSenderRun smallBaseline .plain (fun _ => 0)
      (uploadItems [⟨[0x41], by decide⟩, ⟨[0x44], by decide⟩] ⟨2, 2⟩) with
      | .ok s => s.sent
      | .error _ => []) = smallUploadSession.msgs.map Prod.fst := by decide +kernel
  rw [hsend] at hsent
  obtain ⟨srv, hrun, hrestore⟩ := hserve (smallPlainSessions.take 1) [] smallUploadSession
    hsent.symm (by unfold PlainSession.Orderly; decide +kernel) (by decide +kernel) (by simp)
    (by unfold NoCollision; decide +kernel) (by unfold CodecSafe; decide +kernel)
  have hdraws : (match runPlainSessions smallParams .init
      (smallPlainSessions.take 1 ++ [smallUploadSession]) with
      | .ok srv => srv.disk.draws
      | .error _ => 0) = 4 := by decide +kernel
  rw [hrun] at hdraws
  have hfour : srv.disk.draws = 4 := hdraws
  obtain ⟨file, addrs, hlook, hfile, hlen, hback⟩ := hrestore (freshNames_small (by omega))
  have hflat : (recipeReads 1 file).flatten = addrs :=
    hfile ▸ (recipeReads_spec Nat.one_pos _ addrs).2
  have hopen : ¬ EndsAtFullRequest (recipeReads 1 file) := by
    refine not_endsAtFullRequest ?_ ?_
    · rw [hflat]
      exact List.ne_nil_of_length_pos (by rw [hlen]; decide)
    · rw [hflat, hlen]
      decide
  obtain ⟨restore, r, hrestored, hretrieved, hout⟩ := hback 2 1 [] (by decide) (by decide) hopen
  exact ⟨sender, srv, file, restore, r, hsend, hrun, hlook, hrestored, hretrieved, hout⟩

end Debe
