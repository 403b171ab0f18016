import Debe.SessionRuns
import Debe.Lib.Firsts

/-!
# What a server is meant to keep

Both servers are meant to store every fingerprint once.  Here is what that says of the containers
and of the counters, in terms of the chunks that were received: the ones to be stored are the
first of their fingerprint, in the order of arrival.
-/

namespace Debe

open Firsts

/-! ## Bytes in containers -/

/-- In a container of the name, `data` starts at the offset of the address. -/
def LiesAt (cs : List Container) (a : RecipeEntry) (data : Bytes) : Prop :=
  ∃ c ∈ cs, c.containerID = a.containerName ∧ ∃ before behind,
    c.body = before ++ (data ++ behind) ∧ before.length = a.offset.toNat

variable {cs cs' : List Container} {a : RecipeEntry} {data : Bytes}

theorem LiesAt.mono (h : LiesAt cs a data) (hsub : ∀ c ∈ cs, c ∈ cs') : LiesAt cs' a data := by
  obtain ⟨c, hc, hat⟩ := h
  exact ⟨c, hsub c hc, hat⟩

/-- The last container may grow. -/
theorem LiesAt.grow {id : ContainerID} {body : Bytes} (h : LiesAt (cs ++ [⟨id, body⟩]) a data)
    (more : Bytes) : LiesAt (cs ++ [⟨id, body ++ more⟩]) a data := by
  obtain ⟨c, hc, hid, before, behind, hbody, hoffset⟩ := h
  rcases List.mem_append.mp hc with hc | hc
  · exact ⟨c, List.mem_append_left _ hc, hid, before, behind, hbody, hoffset⟩
  · rw [List.mem_singleton.mp hc] at hid hbody
    have hbody : body = before ++ (data ++ behind) := hbody
    refine ⟨_, List.mem_append_right _ (List.mem_singleton_self _), hid, before,
      behind ++ more, ?_, hoffset⟩
    simp only [hbody, List.append_assoc]

/-- Nothing but no data lies in an empty container. -/
theorem LiesAt.of_empty {id : ContainerID} (h : LiesAt (cs ++ [⟨id, []⟩]) a data)
    (hdata : data ≠ []) : LiesAt cs a data := by
  obtain ⟨c, hc, hid, before, behind, hbody, hoffset⟩ := h
  rcases List.mem_append.mp hc with hc | hc
  · exact ⟨c, hc, hid, before, behind, hbody, hoffset⟩
  · rw [List.mem_singleton.mp hc] at hbody
    have hnil : before ++ (data ++ behind) = [] := hbody.symm
    exact absurd (List.append_eq_nil_iff.mp (List.append_eq_nil_iff.mp hnil).2).1 hdata

/-- A restore finds it in the file of the container. -/
theorem LiesAt.fetched {d : Disk} (hnd : (d.written.map Container.containerID).Nodup)
    (h : LiesAt d.written a data) :
    ∃ body behind, containerFile d a.containerName = some body ∧
      body.drop a.offset.toNat = data ++ behind := by
  obtain ⟨c, hc, hid, before, behind, hbody, hoffset⟩ := h
  refine ⟨c.body, behind, hid ▸ containerFile_of_mem hnd hc, ?_⟩
  rw [hbody, ← hoffset, List.drop_left]

/-- What lies in containers, one after the other. -/
def containerBytes (cs : List Container) : Bytes :=
  cs.flatMap Container.body

/-- What saving `data` does to the containers, the one being filled among them. -/
structure Appends (data : Bytes) (cs : List Container) (a : RecipeEntry) (cs' : List Container) :
    Prop where
  lies : LiesAt cs' a data
  keeps : ∀ a' data', LiesAt cs a' data' → LiesAt cs' a' data'
  bytes : containerBytes cs' = containerBytes cs ++ data

/-- The data goes into the last container. -/
theorem appends_grow (cs : List Container) {id : ContainerID} {body : Bytes}
    (hid : id = a.containerName) (hoffset : body.length = a.offset.toNat) :
    Appends data (cs ++ [⟨id, body⟩]) a (cs ++ [⟨id, body ++ data⟩]) where
  lies := ⟨_, List.mem_append_right _ (List.mem_singleton_self _), hid, body, [],
    by rw [List.append_nil], hoffset⟩
  keeps := fun _ _ hat => hat.grow data
  bytes := by simp [containerBytes]

/-- The data starts a container. -/
theorem appends_next (cs : List Container) {id : ContainerID} (hid : id = a.containerName)
    (hoffset : a.offset = 0) : Appends data cs a (cs ++ [⟨id, data⟩]) where
  lies := ⟨_, List.mem_append_right _ (List.mem_singleton_self _), hid, [], [],
    by rw [List.append_nil, List.nil_append], by rw [hoffset]; rfl⟩
  keeps := fun _ _ hat => hat.mono fun _ hc => List.mem_append_left _ hc
  bytes := by simp [containerBytes]

/-- The containers on a disk, for the reads of a restore. -/
def fetchContainer (d : Disk) (name : ContainerID) : Bytes :=
  (containerFile d name).getD []

/-- Chunks as the clients send them. -/
def Sized (chunk : Bytes) : Prop :=
  chunk ≠ [] ∧ chunk.length ≤ maxChunkSize

instance (chunk : Bytes) : Decidable (Sized chunk) :=
  inferInstanceAs (Decidable (_ ∧ _))

theorem payload_sized {p : Params} {chunk : Bytes} (h : Sized chunk) :
    payload p chunk ≠ [] ∧ (payload p chunk).length ≤ maxChunkSize := by
  refine ⟨?_, (length_payload_le p chunk).trans h.2⟩
  unfold payload
  dsimp only
  split
  · rename_i hpos
    exact List.length_pos_iff.mp hpos
  · exact h.1

/-! ## Counters -/

/-- The statistics of a server that received these chunks. -/
def dedupStats (p : Params) (seen : List Bytes) : Stats where
  logicalChunkNum := seen.length
  logicalDataSize := (seen.map List.length).sum
  uniqueChunkNum := (seen.map p.crypto.generateHash).toFinset.card
  uniqueDataSize := ((firsts p.crypto.generateHash seen).map List.length).sum
  compressedDataSize := ((firsts p.crypto.generateHash seen).flatMap (payload p)).length

variable {p : Params} {seen : List Bytes} {chunk : Bytes}

/-- A chunk whose fingerprint is known. -/
theorem dedupStats_again
    (hmem : p.crypto.generateHash chunk ∈ seen.map p.crypto.generateHash) :
    dedupStats p (seen ++ [chunk]) = { dedupStats p seen with
      logicalChunkNum := (dedupStats p seen).logicalChunkNum + 1
      logicalDataSize := (dedupStats p seen).logicalDataSize + chunk.length } := by
  have hfirsts : firsts p.crypto.generateHash (seen ++ [chunk]) = _ :=
    firsts_concat_of_mem hmem
  simp only [dedupStats, ← length_firsts, hfirsts]
  simp

/-- A chunk whose fingerprint is new. -/
theorem dedupStats_new
    (hnew : p.crypto.generateHash chunk ∉ seen.map p.crypto.generateHash) :
    dedupStats p (seen ++ [chunk]) = {
      logicalChunkNum := (dedupStats p seen).logicalChunkNum + 1
      logicalDataSize := (dedupStats p seen).logicalDataSize + chunk.length
      uniqueChunkNum := (dedupStats p seen).uniqueChunkNum + 1
      uniqueDataSize := (dedupStats p seen).uniqueDataSize + chunk.length
      compressedDataSize :=
        (dedupStats p seen).compressedDataSize + (payload p chunk).length } := by
  have hfirsts : firsts p.crypto.generateHash (seen ++ [chunk]) = _ ++ [chunk] :=
    firsts_concat_of_not_mem hnew
  simp only [dedupStats, ← length_firsts, hfirsts]
  simp

end Debe
