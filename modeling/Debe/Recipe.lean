import Debe.NaiveIndex

/-!
# The recipe file

A recipe file is a sixteen-byte head followed by encrypted batches of addresses.
The head is a placeholder until `FinalizeRecipe` overwrites it, and a batch is
appended whenever `sendRecipeBatchSize` addresses have been collected; the last,
shorter batch comes from `ProcessTailBatch`.

`readRecipe` is the reading side: `ServerOptThread` reads the head, and
`EnclaveRecvDecoder::Run` reads batches of the same size until the end of the
file, each of which the enclave decrypts by itself.
-/

namespace Debe

open Records

/-- The bytes of one recipe batch. -/
def recipePiece (p : Params) (masterKey : Bytes) (es : List RecipeEntry) : Bytes :=
  p.crypto.encryptWithKey masterKey (entriesToBytes es)

/-- The addresses in one piece of the file, as `ProcRecipeBatch` decrypts it. -/
def readPiece (p : Params) (masterKey : Bytes) (piece : Bytes) : List RecipeEntry :=
  entriesOfBytes (piece.length / recipeEntrySize) (p.crypto.decryptWithKey masterKey piece)

/-- What a restore reads from a recipe file: the head and all addresses. -/
def readRecipe (p : Params) (masterKey : Bytes) (file : Bytes) :
    FileRecipeHead × List RecipeEntry :=
  (FileRecipeHead.ofBytes (file.take fileRecipeHeadSize),
    (pieces (recipeEntrySize * p.sendRecipeBatchSize) (file.drop fileRecipeHeadSize)).flatMap
      (readPiece p masterKey))

@[simp] theorem length_recipePiece (p : Params) (masterKey : Bytes) (es : List RecipeEntry) :
    (recipePiece p masterKey es).length = recipeEntrySize * es.length := by
  rw [recipePiece, p.crypto.length_encryptWithKey, length_entriesToBytes, Nat.mul_comm]

theorem readPiece_recipePiece (p : Params) (masterKey : Bytes) (es : List RecipeEntry) :
    readPiece p masterKey (recipePiece p masterKey es) = es := by
  have hnum : (recipePiece p masterKey es).length / recipeEntrySize = es.length := by
    rw [length_recipePiece]
    exact Nat.mul_div_cancel_left _ (by decide)
  rw [readPiece, hnum, recipePiece, p.crypto.decryptWithKey_encryptWithKey,
    entriesOfBytes_entriesToBytes]

/-- **A recipe file is read back.**  Full batches and a shorter last one. -/
theorem readRecipe_layout (p : Params) (masterKey : Bytes) (head : FileRecipeHead)
    {qs : List (List RecipeEntry)} {last : List RecipeEntry}
    (hfull : ∀ q ∈ qs, q.length = p.sendRecipeBatchSize)
    (hlast : last.length ≤ p.sendRecipeBatchSize) :
    readRecipe p masterKey (head.toBytes ++ ((qs.map (recipePiece p masterKey)).flatten ++
      recipePiece p masterKey last)) = (head, qs.flatten ++ last) := by
  have hhead : head.toBytes.length = fileRecipeHeadSize := head.length_toBytes
  have hn : 0 < recipeEntrySize * p.sendRecipeBatchSize :=
    Nat.mul_pos (by decide) p.sendRecipeBatchSize_pos
  have hpieces := pieces_append hn (qs.map (recipePiece p masterKey))
    (recipePiece p masterKey last)
    (by
      intro q hq
      obtain ⟨es, hes, rfl⟩ := List.mem_map.mp hq
      rw [length_recipePiece, hfull es hes])
    (by
      rw [length_recipePiece]
      exact Nat.mul_le_mul_left _ hlast)
  have hread : (qs.map (recipePiece p masterKey)).flatMap (readPiece p masterKey) = qs.flatten := by
    rw [List.flatMap_map]
    simp only [readPiece_recipePiece]
    exact List.flatMap_id
  have htail : (if recipePiece p masterKey last = [] then []
      else [recipePiece p masterKey last]).flatMap
      (readPiece p masterKey) = last := by
    split
    · rename_i hnil
      have hlen := congrArg List.length hnil
      rw [length_recipePiece] at hlen
      have : last.length = 0 := by
        simp [recipeEntrySize] at hlen
        simp [hlen]
      rw [List.length_eq_zero_iff.mp this]
      rfl
    · simp [readPiece_recipePiece]
  have htake : (head.toBytes ++ ((qs.map (recipePiece p masterKey)).flatten ++
      recipePiece p masterKey last)).take fileRecipeHeadSize = head.toBytes := by
    rw [← hhead, List.take_left]
  have hdrop : (head.toBytes ++ ((qs.map (recipePiece p masterKey)).flatten ++
      recipePiece p masterKey last)).drop fileRecipeHeadSize =
      (qs.map (recipePiece p masterKey)).flatten ++ recipePiece p masterKey last := by
    rw [← hhead, List.drop_left]
  rw [readRecipe, htake, hdrop, head.ofBytes_toBytes, hpieces, List.flatMap_append, hread, htail]

/-- The recipe of a running session under the head `head`: full batches in the
file, the rest in the enclave, together the addresses put into it so far. -/
def RecipeInv (p : Params) (head : FileRecipeHead) (c : Client) : Prop :=
  ∃ qs : List (List RecipeEntry), (∀ q ∈ qs, q.length = p.sendRecipeBatchSize) ∧
    c.recipeFile = head.toBytes ++ (qs.map (recipePiece p c.masterKey)).flatten ∧
    c.history.map Prod.snd = qs.flatten ++ c.inRecipe ∧
    c.inRecipe.length < p.sendRecipeBatchSize

/-- Only recipe, key and history matter. -/
theorem RecipeInv.congr {p : Params} {head : FileRecipeHead} {c c' : Client}
    (h : RecipeInv p head c) (hfile : c'.recipeFile = c.recipeFile)
    (hkey : c'.masterKey = c.masterKey) (hrec : c'.inRecipe = c.inRecipe)
    (hhist : c'.history = c.history) : RecipeInv p head c' := by
  unfold RecipeInv
  rw [hfile, hkey, hrec, hhist]
  exact h

/-- **`UpdateFileRecipe`** keeps the layout. -/
theorem RecipeInv.update {p : Params} {head : FileRecipeHead} {u : Upload}
    (h : RecipeInv p head u.client) (fp : Bytes) (a : RecipeEntry) :
    RecipeInv p head (updateFileRecipe p fp a u).client := by
  obtain ⟨qs, hfull, hfile, hhist, hlt⟩ := h
  unfold updateFileRecipe
  dsimp only
  split
  · rename_i hmod
    -- the batch is full: it was one short of the batch size
    have hlen : (u.client.inRecipe ++ [a]).length = p.sendRecipeBatchSize := by
      have hpos : 0 < (u.client.inRecipe ++ [a]).length := by simp
      have hle : (u.client.inRecipe ++ [a]).length ≤ p.sendRecipeBatchSize := by
        simp
        omega
      exact le_antisymm hle (Nat.le_of_dvd hpos (Nat.dvd_of_mod_eq_zero hmod))
    refine ⟨qs ++ [u.client.inRecipe ++ [a]], ?_, ?_, ?_, p.sendRecipeBatchSize_pos⟩
    · intro q hq
      rcases List.mem_append.mp hq with hq | hq
      · exact hfull q hq
      · rw [List.mem_singleton.mp hq, hlen]
    · simp [flushRecipe, hfile, recipePiece]
    · simp [flushRecipe, hhist]
  · rename_i hmod
    refine ⟨qs, hfull, hfile, by simp [hhist], ?_⟩
    have hne : (u.client.inRecipe ++ [a]).length ≠ p.sendRecipeBatchSize := by
      intro he
      rw [he] at hmod
      simp at hmod
    simp at hne ⊢
    omega

private theorem length_flatten_of_forall {α : Type} {n : Nat} {qs : List (List α)}
    (h : ∀ q ∈ qs, q.length = n) : qs.flatten.length = qs.length * n := by
  induction qs with
  | nil => simp
  | cons q qs ih =>
      rw [List.flatten_cons, List.length_append, h q List.mem_cons_self,
        ih fun q' hq' => h q' (List.mem_cons_of_mem _ hq'), List.length_cons, Nat.succ_mul,
        Nat.add_comm]

/-- What a restore reads if the session stops here: the full batches. -/
theorem RecipeInv.read {p : Params} {head : FileRecipeHead} {c : Client}
    (h : RecipeInv p head c) :
    readRecipe p c.masterKey c.recipeFile = (head, (c.history.map Prod.snd).take
      (c.history.length / p.sendRecipeBatchSize * p.sendRecipeBatchSize)) := by
  obtain ⟨qs, hfull, hfile, hhist, hlt⟩ := h
  have hlast : ([] : List RecipeEntry).length ≤ p.sendRecipeBatchSize := Nat.zero_le _
  have hread := readRecipe_layout p c.masterKey head hfull hlast
  have hnil : recipePiece p c.masterKey [] = [] :=
    List.length_eq_zero_iff.mp (by simp)
  rw [hnil, List.append_nil, List.append_nil, ← hfile] at hread
  have hflat : qs.flatten.length = qs.length * p.sendRecipeBatchSize :=
    length_flatten_of_forall hfull
  have hlen : c.history.length = qs.length * p.sendRecipeBatchSize + c.inRecipe.length := by
    have := congrArg List.length hhist
    simpa [hflat] using this
  have hdiv : c.history.length / p.sendRecipeBatchSize = qs.length := by
    rw [hlen, Nat.mul_comm, Nat.mul_add_div p.sendRecipeBatchSize_pos, Nat.div_eq_of_lt hlt,
      Nat.add_zero]
  rw [hread, hdiv, ← hflat, hhist, List.take_left]

/-- **`ProcessTailBatch`** puts the rest of the addresses behind the full batches. -/
theorem RecipeInv.tail {p : Params} {head : FileRecipeHead} {u : Upload}
    (h : RecipeInv p head u.client) :
    ∃ qs : List (List RecipeEntry), (∀ q ∈ qs, q.length = p.sendRecipeBatchSize) ∧
      (processTailBatch p u).client.recipeFile =
        head.toBytes ++ ((qs.map (recipePiece p u.client.masterKey)).flatten ++
          recipePiece p u.client.masterKey u.client.inRecipe) ∧
      u.client.history.map Prod.snd = qs.flatten ++ u.client.inRecipe ∧
      u.client.inRecipe.length < p.sendRecipeBatchSize := by
  obtain ⟨qs, hfull, hfile, hhist, hlt⟩ := h
  refine ⟨qs, hfull, ?_, hhist, hlt⟩
  unfold processTailBatch
  by_cases hnil : u.client.inRecipe = []
  · have hpiece : recipePiece p u.client.masterKey u.client.inRecipe = [] :=
      List.length_eq_zero_iff.mp (by simp [hnil])
    simp only [hnil, ne_eq, not_true_eq_false, if_false]
    rw [← hnil, hpiece, List.append_nil, ← hfile]
    split <;> rfl
  · simp only [ne_eq, hnil, not_false_eq_true, if_true]
    split <;> simp [flushRecipe, hfile, recipePiece]

/-- What a restore reads after `ProcessTailBatch` and `FinalizeRecipe`: the new
head and every address. -/
theorem RecipeInv.read_final {p : Params} {head newHead : FileRecipeHead} {u : Upload}
    (h : RecipeInv p head u.client) :
    readRecipe p u.client.masterKey
      (newHead.toBytes ++ (processTailBatch p u).client.recipeFile.drop fileRecipeHeadSize) =
      (newHead, u.client.history.map Prod.snd) := by
  obtain ⟨qs, hfull, htail, hhist, hlt⟩ := h.tail
  have hhead : head.toBytes.length = fileRecipeHeadSize := head.length_toBytes
  rw [htail, ← hhead, List.drop_left,
    readRecipe_layout p u.client.masterKey newHead hfull hlt.le, hhist]

end Debe
