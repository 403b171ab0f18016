import Debe.NaiveIndex

/-!
# The batch parser and its buffers

`EcallFreqIndex::ProcessOneBatch` decrypts `dataSize` bytes into the client's
receive buffer and walks `currentItemNum` size-prefixed chunks in it, each time
moving on by the size it has just read.  It checks neither the number nor the
sizes: for each chunk it writes one entry of the query buffer, which has room for
`sendChunkBatchSize_` of them, and it hands every chunk that is new to
`ProcessUniqueChunk`, whose buffers on the stack have room for `MAX_CHUNK_SIZE`
bytes.

The walk is modelled here over memory, so that it can leave the message: behind
the decrypted bytes stands whatever was there before.  `Fits` says of a payload
alone that the walk stays inside, and for such a payload the chunks found in
memory are those of `recvChunks`.
-/

namespace Debe

open Records LittleEndian

/-- An upload message after `SessionKeyDec`: any item number, any payload of
`dataSize` bytes. -/
structure RawUpload where
  currentItemNum : UInt32
  payload : Bytes
  payload_lt : payload.length < 2 ^ 32

/-- The memory from `_recvBuffer` on once the payload is there. -/
def recvMemory (payload : Bytes) (stale : Nat → UInt8) (i : Nat) : UInt8 :=
  payload[i]?.getD (stale i)

/-- `n` bytes of memory. -/
def memBytes (mem : Nat → UInt8) (offset n : Nat) : Bytes :=
  (List.range n).map fun i => mem (offset + i)

/-- A chunk as the hashing loop finds it: where its size prefix stands, and the
size. -/
structure ParsedChunk where
  offset : Nat
  chunkSize : Nat
  deriving DecidableEq, Repr

/-- The hashing loop from `currentOffset` on, which is a `size_t`. -/
def parseChunks (mem : Nat → UInt8) : Nat → Nat → List ParsedChunk
  | 0, _ => []
  | n+1, currentOffset =>
      let chunkSize := decode (memBytes mem currentOffset 4)
      ⟨currentOffset, chunkSize⟩ ::
        parseChunks mem n ((currentOffset + 4 + chunkSize) % 2 ^ 64)

/-- The bytes that are hashed for a chunk. -/
def ParsedChunk.bytes (mem : Nat → UInt8) (c : ParsedChunk) : Bytes :=
  memBytes mem (c.offset + 4) c.chunkSize

/-- The calls of `ProcessUniqueChunk` in the store loop: offset and size of each
chunk that is unique inside and outside.  The loop has its own `currentOffset`. -/
def uniqueCalls : Nat → List InQueryEntry → List OutQueryEntry → List (Nat × Nat)
  | _, [], _ => []
  | currentOffset, e :: es, query =>
      let next := (currentOffset + 4 + e.chunkSize) % 2 ^ 64
      if e.dedupFlag = some .unique then
        match query with
        | [] => []
        | q :: rest =>
            if q.dedupFlag = some .unique then
              (currentOffset + 4, e.chunkSize) :: uniqueCalls next es rest
            else uniqueCalls next es rest
      else uniqueCalls next es query

/-- What a batch does to the buffers. -/
structure BatchTrace where
  parsed : List ParsedChunk
  /-- How many entries of `_inQueryBase` are written. -/
  entries : Nat
  /-- Offset and size of the chunks passed to `ProcessUniqueChunk`. -/
  unique : List (Nat × Nat)
  deriving DecidableEq, Repr

/-- The accesses of `ProcessOneBatch`, up to the store loop. -/
def batchTrace (p : Params) (idx : FreqIndex) (out : OutIndex) (msg : RawUpload)
    (stale : Nat → UInt8) : Except Fault BatchTrace := do
  let mem := recvMemory msg.payload stale
  let parsed := parseChunks mem msg.currentItemNum.toNat 0
  let chunks := parsed.map (ParsedChunk.bytes mem)
  let counted := sketchSection idx.cmSketch (chunks.map (hashEntry p))
  let looked ← lookupSection p idx.insideDedupIndex counted.2
  let query := if looked.outQuery ≠ [] then ocallQueryOutIndex out looked.outQuery
    else looked.outQuery
  return { parsed := parsed
           entries := parsed.length
           unique := uniqueCalls 0 looked.done query }

/-- Every access stays inside its buffer: size prefixes, chunks and stored chunks
in the first `dataSize` bytes, the entries in the query buffer, and the stored
chunks in the buffers of `ProcessUniqueChunk`. -/
structure BatchTrace.Safe (p : Params) (msg : RawUpload) (t : BatchTrace) : Prop where
  reads : ∀ c ∈ t.parsed, c.offset + 4 + c.chunkSize ≤ msg.payload.length
  entries : t.entries ≤ p.sendChunkBatchSize
  unique : ∀ c ∈ t.unique, c.1 + c.2 ≤ msg.payload.length ∧ c.2 ≤ maxChunkSize

/-- The payload has room for `n` size-prefixed chunks. -/
def Fits : Nat → Bytes → Prop
  | 0, _ => True
  | n+1, bs => 4 + decode (bs.take 4) ≤ bs.length ∧ Fits n (bs.drop (4 + decode (bs.take 4)))

/-- What a client that follows `DataSender` sends. -/
structure RawUpload.WellFormed (p : Params) (msg : RawUpload) : Prop where
  fits : Fits msg.currentItemNum.toNat msg.payload
  number : msg.currentItemNum.toNat ≤ p.sendChunkBatchSize
  sizes : ∀ chunk ∈ readRecords msg.currentItemNum.toNat msg.payload,
    chunk.length ≤ maxChunkSize

/-! ## The walk -/

theorem length_memBytes (mem : Nat → UInt8) (offset n : Nat) :
    (memBytes mem offset n).length = n := by
  simp [memBytes]

/-- Inside the payload, memory is the payload. -/
theorem memBytes_recvMemory {payload : Bytes} {stale : Nat → UInt8} {offset n : Nat}
    (h : offset + n ≤ payload.length) :
    memBytes (recvMemory payload stale) offset n = (payload.drop offset).take n := by
  apply List.ext_getElem
  · rw [length_memBytes, List.length_take, List.length_drop]
    omega
  · intro i hi _
    rw [length_memBytes] at hi
    have hlt : offset + i < payload.length := by omega
    simp [memBytes, recvMemory, List.getElem?_eq_getElem hlt]

theorem length_parseChunks (mem : Nat → UInt8) (n offset : Nat) :
    (parseChunks mem n offset).length = n := by
  induction n generalizing offset with
  | zero => rfl
  | succ n ih => simp [parseChunks, ih]

variable {payload : Bytes} {stale : Nat → UInt8}

/-- The size prefix at the front of what is left of the payload. -/
theorem decode_front {offset : Nat} (h : offset + 4 ≤ payload.length) :
    decode (memBytes (recvMemory payload stale) offset 4) =
      decode ((payload.drop offset).take 4) := by
  rw [memBytes_recvMemory h]

/-- The first chunk lies inside exactly when the payload has room for it, and then
its size is the one in the payload. -/
theorem chunk_inside_iff {offset : Nat} :
    offset + 4 + decode (memBytes (recvMemory payload stale) offset 4) ≤ payload.length ↔
      offset ≤ payload.length ∧
      4 + decode ((payload.drop offset).take 4) ≤ (payload.drop offset).length := by
  rw [List.length_drop]
  constructor
  · intro h
    rw [decode_front (by omega)] at h
    omega
  · intro h
    rw [decode_front (by omega)]
    omega

/-- Behind a chunk inside the payload `currentOffset` has not wrapped round. -/
theorem next_offset (hlt : payload.length < 2 ^ 32) {offset : Nat}
    (hroom : 4 + decode ((payload.drop offset).take 4) ≤ (payload.drop offset).length) :
    (offset + 4 + decode (memBytes (recvMemory payload stale) offset 4)) % 2 ^ 64 =
      offset + (4 + decode ((payload.drop offset).take 4)) := by
  rw [List.length_drop] at hroom
  rw [decode_front (by omega), Nat.mod_eq_of_lt (by omega), Nat.add_assoc]

/-- **The walk stays inside** exactly when the payload has room for it. -/
theorem parseChunks_inside_iff (hlt : payload.length < 2 ^ 32) {n offset : Nat}
    (hle : offset ≤ payload.length) :
    (∀ c ∈ parseChunks (recvMemory payload stale) n offset,
      c.offset + 4 + c.chunkSize ≤ payload.length) ↔ Fits n (payload.drop offset) := by
  induction n generalizing offset with
  | zero => simp [parseChunks, Fits]
  | succ n ih =>
      rw [parseChunks, List.forall_mem_cons, Fits]
      dsimp only
      rw [chunk_inside_iff, and_iff_right hle]
      refine and_congr_right fun hroom => ?_
      rw [next_offset hlt hroom]
      rw [List.length_drop] at hroom
      rw [ih (by omega), List.drop_drop]

/-- Then the chunks in memory are the records of the payload. -/
theorem parseChunks_bytes (hlt : payload.length < 2 ^ 32) {n offset : Nat}
    (hle : offset ≤ payload.length) (hfits : Fits n (payload.drop offset)) :
    (parseChunks (recvMemory payload stale) n offset).map
      (ParsedChunk.bytes (recvMemory payload stale)) = readRecords n (payload.drop offset) := by
  induction n generalizing offset with
  | zero => rfl
  | succ n ih =>
      obtain ⟨hroom, hrest⟩ := hfits
      have hnext := @next_offset _ stale hlt _ hroom
      rw [List.length_drop] at hroom
      rw [List.drop_drop] at hrest
      have hchunk : memBytes (recvMemory payload stale) (offset + 4)
          (decode ((payload.drop offset).take 4)) =
          (payload.drop (offset + 4)).take (decode ((payload.drop offset).take 4)) :=
        memBytes_recvMemory (by omega)
      rw [parseChunks, List.map_cons, readRecords, hnext, ih (by omega) hrest,
        List.drop_drop, List.drop_drop, ParsedChunk.bytes, decode_front (by omega), hchunk,
        Nat.add_assoc]

/-- For a payload with room for its chunks the chunks in memory are those that the
index is specified with. -/
theorem parseChunks_eq_recvChunks {p : Params} {sessionKey : Bytes} {msg : UploadMsg}
    (hlt : (p.crypto.sessionKeyDec sessionKey msg.dataBuffer).length < 2 ^ 32)
    (hfits : Fits msg.currentItemNum.toNat (p.crypto.sessionKeyDec sessionKey msg.dataBuffer)) :
    (parseChunks (recvMemory (p.crypto.sessionKeyDec sessionKey msg.dataBuffer) stale)
      msg.currentItemNum.toNat 0).map
        (ParsedChunk.bytes (recvMemory (p.crypto.sessionKeyDec sessionKey msg.dataBuffer) stale)) =
      recvChunks p sessionKey msg := by
  rw [parseChunks_bytes hlt (Nat.zero_le _) (by rw [List.drop_zero]; exact hfits), List.drop_zero,
    recvChunks]

/-! ## The chunks that are stored -/

/-- The store loop walks over the same chunks. -/
theorem uniqueCalls_subset {mem : Nat → UInt8} {n offset : Nat} {es : List InQueryEntry}
    {query : List OutQueryEntry}
    (hsizes : es.map InQueryEntry.chunkSize =
      (parseChunks mem n offset).map ParsedChunk.chunkSize) :
    ∀ c ∈ uniqueCalls offset es query,
      c ∈ (parseChunks mem n offset).map fun c => (c.offset + 4, c.chunkSize) := by
  induction n generalizing offset es query with
  | zero =>
      have hnil : es = [] := by simpa [parseChunks] using hsizes
      simp [hnil, uniqueCalls]
  | succ n ih =>
      cases es with
      | nil => simp [parseChunks] at hsizes
      | cons e es =>
          rw [parseChunks, List.map_cons, List.map_cons] at hsizes
          obtain ⟨hsize, hrest⟩ := List.cons.inj hsizes
          dsimp only at hsize hrest
          have htail : ∀ query, ∀ c ∈ uniqueCalls ((offset + 4 + e.chunkSize) % 2 ^ 64) es query,
              c ∈ (parseChunks mem (n + 1) offset).map fun c => (c.offset + 4, c.chunkSize) := by
            intro query c hc
            rw [hsize] at hc
            rw [parseChunks, List.map_cons]
            exact List.mem_cons_of_mem _ (ih hrest c hc)
          intro c hc
          rw [uniqueCalls.eq_def] at hc
          dsimp only at hc
          split at hc
          · split at hc
            · cases hc
            · split at hc
              · rcases List.mem_cons.mp hc with rfl | hc
                · rw [parseChunks, List.map_cons, hsize]
                  exact List.mem_cons_self
                · exact htail _ c hc
              · exact htail _ c hc
          · exact htail _ c hc

/-! ## Whole batches -/

/-- What `batchTrace` needs of the index: a heap as every run of the program has
it. -/
abbrev HeapSound (p : Params) (heap : EntryHeap) : Prop := HeapGood p (fun _ _ => True) heap

/-- No message is turned away: the parser takes no exit. -/
theorem batchTrace_ok {p : Params} {idx : FreqIndex} (hheap : HeapSound p idx.insideDedupIndex)
    (out : OutIndex) (msg : RawUpload) (stale : Nat → UInt8) :
    ∃ t, batchTrace p idx out msg stale = .ok t ∧
      t.parsed = parseChunks (recvMemory msg.payload stale) msg.currentItemNum.toNat 0 ∧
      t.entries = msg.currentItemNum.toNat ∧
      ∀ c ∈ t.unique, c ∈ t.parsed.map fun c => (c.offset + 4, c.chunkSize) := by
  obtain ⟨parsed, hparsed⟩ : ∃ parsed, parsed =
      parseChunks (recvMemory msg.payload stale) msg.currentItemNum.toNat 0 := ⟨_, rfl⟩
  obtain ⟨es, hes⟩ : ∃ es, es = (sketchSection idx.cmSketch
      ((parsed.map (ParsedChunk.bytes (recvMemory msg.payload stale))).map (hashEntry p))).2 :=
    ⟨_, rfl⟩
  have hlength : parsed.length = msg.currentItemNum.toNat := by
    rw [hparsed, length_parseChunks]
  have hsizes : es.map InQueryEntry.chunkSize = parsed.map ParsedChunk.chunkSize := by
    rw [hes, (sketchSection_fields _ _).2, List.map_map, List.map_map]
    apply List.map_congr_left
    intro c _
    exact length_memBytes _ _ _
  have hsmall : es.length < 2 ^ 32 := by
    have := congrArg List.length hsizes
    rw [List.length_map, List.length_map] at this
    rw [this, hlength]
    exact msg.currentItemNum.toNat_lt
  obtain ⟨looked, hlooked, hinv⟩ := lookupSection_spec hheap hsmall
  refine ⟨⟨parsed, parsed.length, uniqueCalls 0 looked.done
      (if looked.outQuery ≠ [] then ocallQueryOutIndex out looked.outQuery
        else looked.outQuery)⟩, ?_, hparsed, hlength, ?_⟩
  · rw [batchTrace, ← hparsed]
    dsimp only
    rw [← hes, hlooked]
    rfl
  · have hdone := hinv.sizes.trans hsizes
    rw [hparsed] at hdone
    rw [hparsed]
    exact uniqueCalls_subset hdone

/-- A batch that stays inside its buffers was a payload with room for its chunks,
and not more of them than a send batch. -/
theorem BatchTrace.Safe.fits {p : Params} {msg : RawUpload} {stale : Nat → UInt8}
    {t : BatchTrace} (h : t.Safe p msg)
    (hparsed : t.parsed = parseChunks (recvMemory msg.payload stale) msg.currentItemNum.toNat 0)
    (hentries : t.entries = msg.currentItemNum.toNat) :
    Fits msg.currentItemNum.toNat msg.payload ∧
      msg.currentItemNum.toNat ≤ p.sendChunkBatchSize := by
  refine ⟨?_, hentries ▸ h.entries⟩
  have hreads := h.reads
  rw [hparsed, parseChunks_inside_iff msg.payload_lt (Nat.zero_le _)] at hreads
  exact hreads

/-- The payload of a batch that a client has packed. -/
theorem fits_frames (chunks : List Bytes) (hfit : ∀ c ∈ chunks, c.length < 2 ^ 32)
    (tail : Bytes) : Fits chunks.length (frames chunks ++ tail) := by
  induction chunks with
  | nil => trivial
  | cons c chunks ih =>
      have hlen : decode (encode 4 c.length) = c.length :=
        decode_encode_of_lt (hfit c List.mem_cons_self)
      have htake : (frames (c :: chunks) ++ tail).take 4 = encode 4 c.length := by
        rw [frames_cons, frame, List.append_assoc, List.append_assoc]
        exact List.take_left' (length_encode _ _)
      have hdrop : (frames (c :: chunks) ++ tail).drop (4 + c.length) =
          frames chunks ++ tail := by
        rw [frames_cons, List.append_assoc]
        exact List.drop_left' (length_frame c)
      rw [List.length_cons, Fits, htake, hlen, hdrop]
      refine ⟨?_, ih fun c hc => hfit c (List.mem_cons_of_mem _ hc)⟩
      rw [frames_cons, List.length_append, List.length_append, length_frame]
      omega

/-- **What `DataSender` packs** is well formed. -/
theorem Batch.wellFormed {p : Params} (b : Batch p) (hlt : (frames b.data).length < 2 ^ 32) :
    RawUpload.WellFormed p ⟨UInt32.ofNat b.chunks.length, frames b.data, hlt⟩ := by
  have hnum : (UInt32.ofNat b.chunks.length).toNat = b.data.length := by
    rw [UInt32.toNat_ofNat_of_lt' b.length_lt, Batch.data, List.length_map]
  have hfit : ∀ c ∈ b.data, c.length < 2 ^ 32 := by
    intro c hc
    have := b.length_data_le c hc
    rw [maxChunkSize] at this
    omega
  refine ⟨?_, ?_, ?_⟩
  · dsimp only
    rw [hnum]
    simpa using fits_frames b.data hfit []
  · dsimp only
    rw [hnum, Batch.data, List.length_map]
    exact b.length_le
  · dsimp only
    rw [hnum, readRecords_frames b.data hfit]
    exact b.length_data_le

/-- **The parser on arbitrary messages.**  No message is rejected.  One that is well
formed keeps every access inside its buffer; and only one whose payload has room
for its chunks, and that has no more chunks than a send batch, does. -/
theorem batch_parser_safety (p : Params) (idx : FreqIndex)
    (hheap : HeapSound p idx.insideDedupIndex) (out : OutIndex) (msg : RawUpload)
    (stale : Nat → UInt8) :
    ∃ t, batchTrace p idx out msg stale = .ok t ∧
      (msg.WellFormed p → t.Safe p msg) ∧
      (t.Safe p msg → Fits msg.currentItemNum.toNat msg.payload ∧
        msg.currentItemNum.toNat ≤ p.sendChunkBatchSize) := by
  obtain ⟨t, hrun, hparsed, hentries, hunique⟩ := batchTrace_ok hheap out msg stale
  refine ⟨t, hrun, ?_, fun h => h.fits hparsed hentries⟩
  intro hwell
  have hfits : Fits msg.currentItemNum.toNat (msg.payload.drop 0) := by
    rw [List.drop_zero]
    exact hwell.fits
  have hreads := (@parseChunks_inside_iff _ stale msg.payload_lt _ _ (Nat.zero_le _)).mpr hfits
  have hbytes := @parseChunks_bytes _ stale msg.payload_lt _ _ (Nat.zero_le _) hfits
  rw [← hparsed] at hreads hbytes
  refine ⟨hreads, hentries ▸ hwell.number, ?_⟩
  intro c hc
  obtain ⟨c', hc', rfl⟩ := List.mem_map.mp (hunique c hc)
  refine ⟨hreads c' hc', ?_⟩
  have hmem : c'.bytes (recvMemory msg.payload stale) ∈
      readRecords msg.currentItemNum.toNat msg.payload := by
    rw [List.drop_zero] at hbytes
    exact hbytes ▸ List.mem_map_of_mem hc'
  have hsize := hwell.sizes _ hmem
  rwa [ParsedChunk.bytes, length_memBytes] at hsize

/-- One chunk in a message of a single batch. -/
theorem batch_parser_safety_one_chunk :
    ∃ t, batchTrace smallParams .init ∅ ⟨1, [1, 0, 0, 0, 0x41], by decide⟩ (fun _ => 0) = .ok t ∧
      t.Safe smallParams ⟨1, [1, 0, 0, 0, 0x41], by decide⟩ := by
  let b : Batch smallParams :=
    { chunks := [⟨[0x41], by decide⟩], length_le := by decide, length_lt := by decide }
  obtain ⟨t, hrun, hsafe, -⟩ := batch_parser_safety smallParams .init (heapGood_empty _ _) ∅
    ⟨1, [1, 0, 0, 0, 0x41], by decide⟩ (fun _ => 0)
  exact ⟨t, hrun, hsafe (b.wellFormed (by decide))⟩

/-- A message that announces one chunk and holds none is processed, and its size
prefix is read from behind the payload. -/
theorem batch_parser_unsafe_empty_payload :
    ∃ t, batchTrace smallParams .init ∅ ⟨1, [], by decide⟩ (fun _ => 0) = .ok t ∧
      ¬ t.Safe smallParams ⟨1, [], by decide⟩ := by
  obtain ⟨t, hrun, hparsed, hentries, -⟩ := batchTrace_ok
    (show HeapGood smallParams (fun _ _ => True) FreqIndex.init.insideDedupIndex from
      heapGood_empty smallParams _) ∅ ⟨1, [], by decide⟩ fun _ => 0
  refine ⟨t, hrun, fun hsafe => ?_⟩
  exact absurd (hsafe.fits hparsed hentries).1.1 (by decide)

end Debe
