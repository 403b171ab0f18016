import Debe.MapStore
import Debe.Recipe

/-!
# Segments and their deduplication

Extreme binning and sparse indexing process a segment of chunks at a time: the chunks one
behind the other in a buffer, and a record of size and fingerprint for each.  Both compare
the segment with a small map of fingerprints and addresses, chunk by chunk: a fingerprint
that is in the map is a duplicate, any other chunk is stored and joins the map.

`Deduped` says what that loop does, with a log of the fingerprints and addresses in the
order of the chunks.
-/

namespace Debe

open LittleEndian

/-- `SegmentMeta_t`. -/
structure SegmentMeta where
  chunkSize : UInt32
  chunkHash : ChunkHash
  deriving DecidableEq, Repr

/-- `sizeof(SegmentMeta_t)`. -/
def segmentMetaSize : Nat := 4 + chunkHashSize

def SegmentMeta.toBytes (m : SegmentMeta) : Bytes := encode 4 m.chunkSize.toNat ++ m.chunkHash.1

/-- `Segment_t`.  Buffer and metadata are held up to `segmentSize` and `chunkNum`. -/
structure Segment where
  minHashVal : UInt32
  minHash : ChunkHash
  buffer : Bytes
  metadata : List SegmentMeta
  deriving DecidableEq, Repr

/-- The record of a chunk. -/
def chunkMeta (p : Params) (chunk : Bytes) : SegmentMeta where
  chunkSize := UInt32.ofNat chunk.length
  chunkHash := p.fingerprint chunk

/-- The segment holds these chunks. -/
structure Segment.Holds (p : Params) (segment : Segment) (chunks : List Chunk) : Prop where
  buffer : segment.buffer = chunks.flatMap Subtype.val
  metadata : segment.metadata = chunks.map fun c => chunkMeta p c.1

/-- The bytes of the metadata. -/
def Segment.metadataBytes (segment : Segment) : Bytes :=
  segment.metadata.flatMap SegmentMeta.toBytes

/-- The hash of a segment is the hash of its metadata. -/
def segmentHash (p : Params) (segment : Segment) : ChunkHash :=
  p.fingerprint segment.metadataBytes

theorem SegmentMeta.length_toBytes (m : SegmentMeta) : m.toBytes.length = segmentMetaSize := by
  rw [toBytes, List.length_append, length_encode, m.chunkHash.2]
  rfl

theorem SegmentMeta.toBytes_inj {m m' : SegmentMeta} (h : m.toBytes = m'.toBytes) : m = m' := by
  obtain ⟨hsize, hhash⟩ := List.append_inj h (by rw [length_encode, length_encode])
  have hword := congrArg decode hsize
  rw [decode_encode_of_lt m.chunkSize.toNat_lt, decode_encode_of_lt m'.chunkSize.toNat_lt] at hword
  cases m
  cases m'
  exact congrArg₂ SegmentMeta.mk (UInt32.toNat_inj.mp hword) (Subtype.ext hhash)

/-- The metadata can be told from its bytes. -/
theorem Segment.metadata_eq {segment segment' : Segment}
    (h : segment.metadataBytes = segment'.metadataBytes) : segment.metadata = segment'.metadata :=
  Blocks.flatMap_inj (by decide) SegmentMeta.length_toBytes (fun _ _ => SegmentMeta.toBytes_inj) h

/-! ## The loop -/

/-- What the loop over the chunks of a segment threads. -/
structure DedupState where
  tmpDedupIndex : DedupIndex
  offset : Nat
  upload : Upload

/-- One chunk: its address, and the state after it. -/
def dedupChunk (p : Params) (buffer : Bytes) (s : DedupState) (m : SegmentMeta) :
    Except Fault (RecipeEntry × DedupState) :=
  match s.tmpDedupIndex.lookup m.chunkHash with
  | some address =>
      .ok (address, { s with
        offset := s.offset + m.chunkSize.toNat
        upload := updateFileRecipe p m.chunkHash.1 address s.upload })
  | none => do
      let chunk ← inRange (Buffer.read buffer s.offset m.chunkSize.toNat)
      let r := storeUnique p chunk s.upload
      return (r.1, {
        tmpDedupIndex := s.tmpDedupIndex.insert m.chunkHash r.1
        offset := s.offset + m.chunkSize.toNat
        upload := updateFileRecipe p m.chunkHash.1 r.1 r.2 })

/-- The addresses of a map are those of chunks with these fingerprints that were saved. -/
def SavedIn (u : Upload) (m : DedupIndex) : Prop :=
  ∀ k a, m.lookup k = some a → (k.1, a) ∈ u.disk.saved

/-- What the recipe gets for a chunk. -/
def BinValue.recorded (e : BinValue) : Bytes × RecipeEntry := (e.chunkFp.1, e.address)

/-- What some chunks with the fingerprints of `log` do: the map grows, has the address of
each, and the addresses go into the recipe.  What is stored is saved. -/
structure Deduped (p : Params) (s : DedupState) (log : List BinValue) (s' : DedupState) :
    Prop where
  grows : ∀ k a, s.tmpDedupIndex.lookup k = some a → s'.tmpDedupIndex.lookup k = some a
  found : ∀ e ∈ log, s'.tmpDedupIndex.lookup e.chunkFp = some e.address
  history : s'.upload.client.history = s.upload.client.history ++ log.map BinValue.recorded
  saved : SavedIn s.upload s.tmpDedupIndex → SavedIn s'.upload s'.tmpDedupIndex
  prefix_saved : s.upload.disk.saved <+: s'.upload.disk.saved
  stored : s.upload.client.inContainer.length < maxContainerSize → StoreStep p s.upload s'.upload
  recipe : ∀ head, RecipeInv p head s.upload.client → RecipeInv p head s'.upload.client

variable {p : Params} {s s' s'' : DedupState} {log log' : List BinValue}

theorem Deduped.refl (s : DedupState) : Deduped p s [] s where
  grows := fun _ _ => id
  found := nofun
  history := (List.append_nil _).symm
  saved := id
  prefix_saved := List.prefix_refl _
  stored := fun hroom => StoreStep.of_same hroom rfl rfl rfl
  recipe := fun _ => id

theorem Deduped.trans (h : Deduped p s log s') (h' : Deduped p s' log' s'') :
    Deduped p s (log ++ log') s'' where
  grows := fun k a hk => h'.grows k a (h.grows k a hk)
  found := fun e he => (List.mem_append.mp he).elim
    (fun he => h'.grows _ _ (h.found e he)) (h'.found e)
  history := by rw [h'.history, h.history, List.map_append, List.append_assoc]
  saved := fun hs => h'.saved (h.saved hs)
  prefix_saved := h.prefix_saved.trans h'.prefix_saved
  stored := fun hroom => (h.stored hroom).trans (h'.stored (h.stored hroom).room)
  recipe := fun head hrecipe => h'.recipe head (h.recipe head hrecipe)

/-- What is recorded is among what was saved. -/
theorem Deduped.recorded_saved (h : Deduped p s log s')
    (hs : SavedIn s.upload s.tmpDedupIndex) {e : BinValue} (he : e ∈ log) :
    e.recorded ∈ s'.upload.disk.saved :=
  h.saved hs _ _ (h.found e he)

/-- `UpdateFileRecipe` notes the address. -/
theorem updateFileRecipe_history (p : Params) (fp : Bytes) (a : RecipeEntry) (u : Upload) :
    (updateFileRecipe p fp a u).client.history = u.client.history ++ [(fp, a)] := by
  unfold updateFileRecipe flushRecipe
  dsimp only
  split <;> rfl

/-- Storing a chunk that the map does not have. -/
theorem storeUnique_facts (p : Params) (chunk : Bytes) (u : Upload) :
    (storeUnique p chunk u).2.client.history = u.client.history ∧
    (storeUnique p chunk u).2.disk.saved =
      u.disk.saved ++ [(p.crypto.generateHash chunk, (storeUnique p chunk u).1)] ∧
    ∀ head, RecipeInv p head u.client → RecipeInv p head (storeUnique p chunk u).2.client := by
  obtain ⟨hrec, hfile, hkey, hhistory⟩ := processUniqueChunk_recipe p chunk u
  exact ⟨hhistory, processUniqueChunk_saved p chunk u, fun _ h => h.congr hfile hkey hrec hhistory⟩

theorem storeUnique_storeStep (p : Params) {chunk : Bytes} {u : Upload}
    (hchunk : chunk.length ≤ maxChunkSize)
    (hroom : u.client.inContainer.length < maxContainerSize) :
    StoreStep p u (storeUnique p chunk u).2 := by
  have hstep := (processUniqueChunk_spec p hchunk hroom).1
  exact hstep.trans (StoreStep.of_same hstep.room rfl rfl rfl)

/-- A fingerprint that the map has. -/
theorem Deduped.known {k : ChunkHash} {a : RecipeEntry} (h : s.tmpDedupIndex.lookup k = some a)
    (offset : Nat) :
    Deduped p s [⟨k, a⟩] { s with
      offset := offset
      upload := updateFileRecipe p k.1 a s.upload } where
  grows := fun _ _ => id
  found := fun e he => by
    rw [List.mem_singleton.mp he]
    exact h
  history := updateFileRecipe_history p k.1 a s.upload
  saved := id
  prefix_saved := List.prefix_refl _
  stored := fun hroom => updateFileRecipe_storeStep p k.1 a hroom
  recipe := fun _ hrecipe => hrecipe.update _ _

/-- **One chunk.** -/
theorem dedupChunk_spec {buffer chunk : Bytes} {s : DedupState}
    (hread : Buffer.read buffer s.offset chunk.length = some chunk)
    (hchunk : chunk.length ≤ maxChunkSize) :
    ∃ a s', dedupChunk p buffer s (chunkMeta p chunk) = .ok (a, s') ∧
      s'.offset = s.offset + chunk.length ∧ Deduped p s [⟨p.fingerprint chunk, a⟩] s' := by
  have hsize : (chunkMeta p chunk).chunkSize.toNat = chunk.length :=
    UInt32.toNat_ofNat_of_lt' (hchunk.trans_lt (by decide))
  unfold dedupChunk
  rw [hsize]
  cases hl : s.tmpDedupIndex.lookup (chunkMeta p chunk).chunkHash with
  | some a =>
      exact ⟨a, _, rfl, rfl, .known hl _⟩
  | none =>
      obtain ⟨hhistory, hsaved, hrecipe⟩ := storeUnique_facts p chunk s.upload
      refine ⟨_, _, by rw [hread]; rfl, rfl, fun k a hk => ?_, fun e he => ?_, ?_,
        fun hs k a hk => ?_, ?_, fun hroom => ?_, fun head h => (hrecipe head h).update _ _⟩
      · have hne : k ≠ (chunkMeta p chunk).chunkHash := by
          rintro rfl
          rw [hl] at hk
          cases hk
        exact (AList.lookup_insert_ne hne).trans hk
      · rw [List.mem_singleton.mp he]
        exact AList.lookup_insert _
      · rw [updateFileRecipe_history, hhistory]
        rfl
      · change (k.1, a) ∈ (storeUnique p chunk s.upload).2.disk.saved
        rw [hsaved]
        by_cases hkey : k = (chunkMeta p chunk).chunkHash
        · subst hkey
          obtain rfl : _ = a := Option.some.inj ((AList.lookup_insert _).symm.trans hk)
          exact List.mem_append_right _ (List.mem_singleton_self _)
        · exact List.mem_append_left _ (hs k a ((AList.lookup_insert_ne hkey).symm.trans hk))
      · change s.upload.disk.saved <+: (storeUnique p chunk s.upload).2.disk.saved
        rw [hsaved]
        exact List.prefix_append _ _
      · have hstep := storeUnique_storeStep p hchunk hroom
        exact hstep.trans (updateFileRecipe_storeStep p _ _ hstep.room)

/-- The state of the loop behind some of the chunks of a segment. -/
structure DedupedUpTo (p : Params) (s : DedupState) (pre : List Chunk) (log : List BinValue)
    (s' : DedupState) : Prop where
  run : Deduped p s log s'
  offset : s'.offset = (pre.flatMap Subtype.val).length
  fps : log.map BinValue.chunkFp = pre.map fun c => p.fingerprint c.1

theorem DedupedUpTo.start {s : DedupState} (h : s.offset = 0) : DedupedUpTo p s [] [] s where
  run := .refl s
  offset := h
  fps := rfl

/-- **The next chunk of a segment.** -/
theorem DedupedUpTo.next {segment : Segment} {chunks pre rest : List Chunk} {chunk : Chunk}
    (hseg : segment.Holds p chunks) (hcut : chunks = pre ++ chunk :: rest)
    (h : DedupedUpTo p s pre log s') :
    ∃ a s'', dedupChunk p segment.buffer s' (chunkMeta p chunk.1) = .ok (a, s'') ∧
      DedupedUpTo p s (pre ++ [chunk]) (log ++ [⟨p.fingerprint chunk.1, a⟩]) s'' := by
  have hread : Buffer.read segment.buffer s'.offset chunk.1.length = some chunk.1 := by
    rw [hseg.buffer, hcut, h.offset, List.flatMap_append, List.flatMap_cons]
    exact Buffer.read_mid _ _ _
  obtain ⟨a, s'', hrun, hoffset, hstep⟩ := dedupChunk_spec (p := p) hread chunk.2
  refine ⟨a, s'', hrun, h.run.trans hstep, ?_, ?_⟩
  · rw [hoffset, h.offset, List.flatMap_append, List.length_append, List.flatMap_singleton]
  · rw [List.map_append, h.fps, List.map_append]
    rfl

/-- The loop of extreme binning. -/
def dedupStep (p : Params) (buffer : Bytes) (s : DedupState) (m : SegmentMeta) :
    Except Fault DedupState := do
  let r ← dedupChunk p buffer s m
  return r.2

/-- **The loop over a segment.** -/
theorem dedupLoop_spec {segment : Segment} {chunks : List Chunk} (hseg : segment.Holds p chunks)
    (hstart : s.offset = 0) :
    ∃ log s', segment.metadata.foldlM (dedupStep p segment.buffer) s = .ok s' ∧
      Deduped p s log s' ∧ log.map BinValue.chunkFp = chunks.map fun c => p.fingerprint c.1 := by
  rw [hseg.metadata, List.foldlM_map]
  obtain ⟨s', hrun, log, h⟩ := Loops.foldlM_ok (l := chunks) (s := s)
    (f := fun s c => dedupStep p segment.buffer s (chunkMeta p c.1))
    (P := fun pre s' => ∃ log, DedupedUpTo p s pre log s') ⟨[], .start hstart⟩ (by
      rintro pre chunk rest s' hcut ⟨log, h⟩
      obtain ⟨a, s'', hrun, hnext⟩ := h.next hseg hcut
      exact ⟨s'', by rw [dedupStep, hrun]; rfl, _, hnext⟩)
  exact ⟨log, s', hrun, h.run, h.fps⟩

/-! ## What a segment does to the upload -/

/-- A segment with these chunks: one address for each goes into the recipe, each the address
of a chunk with the same fingerprint that was saved, now or before. -/
structure Recorded (p : Params) (u : Upload) (chunks : List Chunk) (u' : Upload) : Prop where
  log : ∃ log : List BinValue, log.map BinValue.chunkFp = chunks.map (fun c => p.fingerprint c.1) ∧
    u'.client.history = u.client.history ++ log.map BinValue.recorded ∧
    ∀ e ∈ log, e.recorded ∈ u'.disk.saved
  prefix_saved : u.disk.saved <+: u'.disk.saved
  stored : u.client.inContainer.length < maxContainerSize → StoreStep p u u'
  recipe : ∀ head, RecipeInv p head u.client → RecipeInv p head u'.client

theorem Deduped.recorded (h : Deduped p s log s') (hs : SavedIn s.upload s.tmpDedupIndex)
    {chunks : List Chunk}
    (hfps : log.map BinValue.chunkFp = chunks.map fun c => p.fingerprint c.1) :
    Recorded p s.upload chunks s'.upload where
  log := ⟨log, hfps, h.history, fun _ he => h.recorded_saved hs he⟩
  prefix_saved := h.prefix_saved
  stored := h.stored
  recipe := h.recipe

/-- What happens to a server with segments: one is processed, or anything else may happen
to clients and containers, by which the log of what was saved is not changed. -/
inductive SegmentEvent
  | segment (segment : Segment)
  | other (u : Upload)

/-- The segments among some events. -/
def segmentsOf (events : List SegmentEvent) : List Segment :=
  events.filterMap fun
    | .segment segment => some segment
    | .other _ => none

theorem segmentsOf_mid (pre : List SegmentEvent) (segment : Segment) (post : List SegmentEvent) :
    segmentsOf (pre ++ .segment segment :: post) =
      segmentsOf pre ++ [segment] ++ segmentsOf post := by
  rw [segmentsOf, List.filterMap_append, List.append_assoc]
  rfl

/-- **A run over segments.**  What a segment adds to the invariant and other events keep, holds
after a run for all its segments. -/
theorem run_segments {σ : Type} {step : σ → SegmentEvent → Except Fault σ}
    {P : List Segment → σ → Prop} {events : List SegmentEvent} {s : σ} (hs : P [] s)
    (hother : ∀ seen u s, P seen s → ∃ s', step s (.other u) = .ok s' ∧ P seen s')
    (hsegment : ∀ seen segment rest s, segmentsOf events = seen ++ segment :: rest →
      P seen s → ∃ s', step s (.segment segment) = .ok s' ∧ P (seen ++ [segment]) s') :
    ∃ s', events.foldlM step s = .ok s' ∧ P (segmentsOf events) s' := by
  refine Loops.foldlM_ok (P := fun pre s => P (segmentsOf pre) s) hs ?_
  rintro pre (segment | u) rest s rfl hpre
  · have hnil : segmentsOf [] = [] := rfl
    rw [segmentsOf_mid, hnil, List.append_nil]
    refine hsegment (segmentsOf pre) segment (segmentsOf rest) s ?_ hpre
    rw [segmentsOf_mid, List.append_assoc, List.singleton_append]
  · obtain ⟨s', hstep, hs'⟩ := hother (segmentsOf pre) u s hpre
    refine ⟨s', hstep, ?_⟩
    rwa [segmentsOf, List.filterMap_append, List.filterMap_cons_none rfl, List.filterMap_nil,
      List.append_nil]

/-- The upload state of another client, with the log of what was saved. -/
def Upload.between (u u' : Upload) : Upload :=
  { u' with disk := { u'.disk with saved := u.disk.saved } }

/-- The first `n` IDs are different, and none of them is a key of the store. -/
structure FreshIDs (p : SegmentParams) (store : OutIndex) (n : Nat) : Prop where
  inj : ∀ i < n, ∀ j < n, p.segmentID i = p.segmentID j → i = j
  notMem : ∀ i < n, (p.segmentID i).1 ∉ store

/-! ## A small configuration -/

/-- The small configuration, with numbers for IDs. -/
def smallSegmentParams : SegmentParams where
  toParams := smallParams
  segmentID n := ⟨encode 16 n, length_encode 16 n⟩
  iterate m := m.entries
  iterate_perm _ := .refl _

theorem freshIDs_small {n : Nat} (hn : n ≤ 2 ^ 128) : FreshIDs smallSegmentParams ∅ n where
  inj := by
    intro i hi j hj h
    have hword := congrArg (fun id : SegmentID => decode id.1) h
    change decode (encode 16 i) = decode (encode 16 j) at hword
    rwa [decode_encode_of_lt (by omega), decode_encode_of_lt (by omega)] at hword
  notMem := fun _ _ => AList.notMem_empty _

/-- The segment with these chunks.  Nothing depends on its least hash. -/
def segmentWith (p : Params) (chunks : List Chunk) : Segment where
  minHashVal := 0
  minHash := p.fingerprint []
  buffer := chunks.flatMap Subtype.val
  metadata := chunks.map fun c => chunkMeta p c.1

theorem segmentWith_holds (p : Params) (chunks : List Chunk) :
    (segmentWith p chunks).Holds p chunks where
  buffer := rfl
  metadata := rfl

end Debe
