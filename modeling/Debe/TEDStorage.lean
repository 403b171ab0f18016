import Debe.BaselineSystem
import Debe.TEDUpload

/-!
# What `TEDDAE` costs the server

A chunk that is frequent is sent under several keys, and so it is stored several times.  The
frequency that the key manager estimates bounds how often.
-/

namespace Debe

open Records FrameBuffer

/-- The keys that a chunk has among some chunks. -/
def keysOf (ks : List KeyedChunk) (c : Bytes) : Finset Bytes :=
  ((ks.filter fun k => k.chunk = c).map KeyedChunk.key).toFinset

/-- What is made of keys and chunks is of as many kinds as all chunks have keys, at most. -/
theorem card_map_le_sum_keysOf {β : Type} [DecidableEq β] (f : Bytes → Bytes → β)
    (ks : List KeyedChunk) :
    (ks.map fun k => f k.key k.chunk).toFinset.card ≤
      ∑ c ∈ (ks.map KeyedChunk.chunk).toFinset, (keysOf ks c).card := by
  have hsub : (ks.map fun k => f k.key k.chunk).toFinset ⊆
      (ks.map KeyedChunk.chunk).toFinset.biUnion fun c =>
        (keysOf ks c).image fun key => f key c := by
    intro b hb
    obtain ⟨k, hk, rfl⟩ := List.mem_map.mp (List.mem_toFinset.mp hb)
    have hkey : k.key ∈ keysOf ks k.chunk := by
      refine List.mem_toFinset.mpr (List.mem_map_of_mem ?_)
      exact List.mem_filter.mpr ⟨hk, decide_eq_true rfl⟩
    exact Finset.mem_biUnion.mpr ⟨k.chunk, List.mem_toFinset.mpr (List.mem_map_of_mem hk),
      Finset.mem_image_of_mem _ hkey⟩
  calc (ks.map fun k => f k.key k.chunk).toFinset.card
      ≤ ((ks.map KeyedChunk.chunk).toFinset.biUnion fun c =>
          (keysOf ks c).image fun key => f key c).card := Finset.card_le_card hsub
    _ ≤ ∑ c ∈ (ks.map KeyedChunk.chunk).toFinset,
          ((keysOf ks c).image fun key => f key c).card := Finset.card_biUnion_le
    _ ≤ ∑ c ∈ (ks.map KeyedChunk.chunk).toFinset, (keysOf ks c).card :=
        Finset.sum_le_sum fun c _ => Finset.card_image_le

/-- **The storage that `TEDDAE` costs.**  Whatever numbers the key manager draws, the upload of a
file and the server that receives it run through, and for every different chunk of the file the
server counts one unique chunk more than a fifth of its estimated frequency at most. -/
theorem ted_storage (p : BaselineParams) (t : TEDSetup) (server : Params)
    (hmanager : p.keyManager = tedKeyManager t)
    (hbatch : p.sendChunkBatchSize * chunkHashSize < 2 ^ 32) (heap : Nat → UInt8)
    (chunks : List Chunk) (recipeHead : FileRecipeHead) (hsmall : chunks.length < 2 ^ 32)
    (hfit : BatchesFit p.sendChunkBatchSize (chunks.map (·.val)))
    (hnonempty : ∀ c ∈ chunks, c.val ≠ []) :
    ∃ sender, baselineSenderRun p .ted heap (uploadItems chunks recipeHead) = .ok sender ∧
      ∀ session : PlainSession, session.msgs.map Prod.fst = sender.sent →
        ∃ srv, runPlainSessions server .init [session] = .ok srv ∧
          srv.counters.logicalChunkNum = chunks.length ∧
          srv.counters.uniqueChunkNum ≤ ∑ c ∈ (chunks.map (·.val)).toFinset,
            (tedChunkFreq p (chunks.map (·.val)) c / tedT + 1) := by
  obtain ⟨sender, groups, hsend, hdone, hlen, hgood⟩ :=
    ted_run p t hmanager hbatch heap chunks recipeHead hsmall hfit
  refine ⟨sender, hsend, fun session hmsgs => ?_⟩
  obtain ⟨horderly, -⟩ := session_of_upload hmsgs (baselineSenderRun_sent hsend)
  have hreceived : receivedChunks [session] = ciphertexts p .ted groups.flatten := by
    rw [receivedChunks, List.flatMap_singleton, hdone.session_chunks hmsgs]
  have hsized : ∀ c ∈ receivedChunks [session], Sized c := by
    rw [receivedChunks, List.flatMap_singleton]
    exact hdone.sized_session hmsgs hnonempty
  obtain ⟨srv, hrun, -⟩ := runPlainSessions_recipes server (List.forall_mem_singleton.mpr horderly)
  have hinv := runPlainSessions_inv hsized hrun
  refine ⟨srv, hrun, ?_, ?_⟩
  · rw [hinv.logicalChunkNum, hreceived, ciphertexts, List.length_map,
      ← List.length_map (f := KeyedChunk.chunk), hdone.chunks, List.length_map]
  · rw [hinv.uniqueChunkNum, hreceived, ciphertexts, List.map_map]
    refine (card_map_le_sum_keysOf
      (fun key c => server.crypto.generateHash (ciphertext p .ted key c)) _).trans ?_
    rw [← hdone.chunks]
    exact Finset.sum_le_sum fun c _ => hgood.few hlen c

/-- The server counts not more than one unique chunk for each of two different chunks. -/
theorem ted_storage_small :
    ∃ session srv, runPlainSessions smallParams .init [session] = .ok srv ∧
      srv.counters.logicalChunkNum = 3 ∧ srv.counters.uniqueChunkNum ≤ 2 := by
  obtain ⟨sender, -, hserve⟩ := ted_storage smallTEDClient smallTED smallParams rfl (by decide)
    (fun _ => 0) [⟨[7, 8], by decide⟩, ⟨[9], by decide⟩, ⟨[7, 8], by decide⟩] ⟨4, 3⟩ (by decide)
    (batchesFit_of_chunkBufferSize (p := smallTEDClient) (by decide) _) (by decide)
  obtain ⟨srv, hrun, hlogical, hunique⟩ :=
    hserve ⟨[1], ⟨0, 0⟩, sender.sent.map fun m => (m, fun _ => 0)⟩
      (by rw [List.map_map]; exact List.map_id _)
  exact ⟨_, srv, hrun, hlogical, hunique.trans (by decide +kernel)⟩

end Debe
