import Debe.Lib.KeyStream
import Debe.Recipe
import Mathlib.Data.Nat.ModEq

/-!
# Recipes across configurations

`sendRecipeBatchSize_` is read from the configuration whenever the server starts,
and the recipe file does not say with which value it was written.  The upload
encrypts a batch of that many addresses with one call of `EncryptWithKey`, and
the restore decrypts as many as its own value says with one call of
`DecryptWithKey`; both start the key stream anew at every call.  An address takes
up one block of the key stream.  So address number `i` of a file is masked with
block `i % b₁` by the upload and with block `i % b₂` by the restore.
-/

namespace Debe

open Records KeyStream

/-- The same server under another `sendRecipeBatchSize_`. -/
def Params.withRecipeBatch (p : Params) (b : Nat) (hb : 0 < b) : Params :=
  { p with sendRecipeBatchSize := b, sendRecipeBatchSize_pos := hb }

/-- `EncryptWithKey` and `DecryptWithKey` mask with a key stream that is the same
for every call under a key. -/
structure StreamMode (c : Crypto) (ks : Bytes → Nat → UInt8) : Prop where
  encrypt : ∀ key d, c.encryptWithKey key d = mask (ks key) d
  decrypt : ∀ key d, c.decryptWithKey key d = mask (ks key) d

/-- Block `i` of a key stream. -/
def keyBlock (ks : Nat → UInt8) (i : Nat) : Bytes :=
  (List.range recipeEntrySize).map fun j => ks (i * recipeEntrySize + j)

/-- The file after an upload of these addresses: `UpdateFileRecipe` for each of
them, then `ProcessTailBatch`. -/
def uploadRecipe (p : Params) (u : Upload) (entries : List (Bytes × RecipeEntry)) : Bytes :=
  (processTailBatch p
    (entries.foldl (fun u e => updateFileRecipe p e.1 e.2 u) u)).client.recipeFile

/-- A client whose recipe holds its head only. -/
structure FreshRecipe (head : FileRecipeHead) (c : Client) : Prop where
  inRecipe : c.inRecipe = []
  recipeFile : c.recipeFile = head.toBytes
  history : c.history = []

/-! ## The upload -/

theorem FreshRecipe.inv {p : Params} {head : FileRecipeHead} {c : Client}
    (h : FreshRecipe head c) : RecipeInv p head c := by
  refine ⟨[], nofun, ?_, ?_, ?_⟩
  · simp [h.recipeFile]
  · simp [h.history, h.inRecipe]
  · rw [h.inRecipe]
    exact p.sendRecipeBatchSize_pos

theorem updateFileRecipe_fields (p : Params) (fp : Bytes) (a : RecipeEntry) (u : Upload) :
    (updateFileRecipe p fp a u).client.masterKey = u.client.masterKey ∧
      (updateFileRecipe p fp a u).client.history = u.client.history ++ [(fp, a)] := by
  unfold updateFileRecipe
  dsimp only
  split <;> exact ⟨rfl, rfl⟩

/-- The loop over the addresses. -/
theorem foldl_updateFileRecipe {p : Params} {head : FileRecipeHead} {u : Upload}
    (h : RecipeInv p head u.client) (entries : List (Bytes × RecipeEntry)) :
    RecipeInv p head (entries.foldl (fun u e => updateFileRecipe p e.1 e.2 u) u).client ∧
    (entries.foldl (fun u e => updateFileRecipe p e.1 e.2 u) u).client.masterKey =
      u.client.masterKey ∧
    (entries.foldl (fun u e => updateFileRecipe p e.1 e.2 u) u).client.history =
      u.client.history ++ entries := by
  induction entries generalizing u with
  | nil => exact ⟨h, rfl, by simp⟩
  | cons e entries ih =>
      obtain ⟨hkey, hhist⟩ := updateFileRecipe_fields p e.1 e.2 u
      obtain ⟨hinv, hkey', hhist'⟩ := ih (h.update e.1 e.2)
      rw [List.foldl_cons]
      exact ⟨hinv, hkey'.trans hkey, by rw [hhist', hhist, List.append_assoc]; rfl⟩

theorem entriesToBytes_append (es es' : List RecipeEntry) :
    entriesToBytes (es ++ es') = entriesToBytes es ++ entriesToBytes es' := by
  simp [entriesToBytes]

theorem entriesToBytes_flatten (qs : List (List RecipeEntry)) :
    entriesToBytes qs.flatten = (qs.map entriesToBytes).flatten := by
  induction qs with
  | nil => rfl
  | cons q qs ih => rw [List.flatten_cons, entriesToBytes_append, ih, List.map_cons,
      List.flatten_cons]

variable {p : Params} {ks : Bytes → Nat → UInt8}

/-- The batches of an upload, masked one by one, are the plaintext masked with the
key stream that starts again at every batch. -/
theorem layout_eq_mask (hks : StreamMode p.crypto ks) (masterKey : Bytes)
    {qs : List (List RecipeEntry)} {last : List RecipeEntry}
    (hfull : ∀ q ∈ qs, q.length = p.sendRecipeBatchSize)
    (hlast : last.length ≤ p.sendRecipeBatchSize) :
    (qs.map (recipePiece p masterKey)).flatten ++ recipePiece p masterKey last =
      mask (restart (recipeEntrySize * p.sendRecipeBatchSize) (ks masterKey))
        (entriesToBytes (qs.flatten ++ last)) := by
  have hn : 0 < recipeEntrySize * p.sendRecipeBatchSize :=
    Nat.mul_pos (by decide) p.sendRecipeBatchSize_pos
  have hpieces := pieces_append hn (qs.map entriesToBytes) (entriesToBytes last)
    (by
      intro q hq
      obtain ⟨es, hes, rfl⟩ := List.mem_map.mp hq
      rw [length_entriesToBytes, hfull es hes, Nat.mul_comm])
    (by
      rw [length_entriesToBytes, Nat.mul_comm]
      exact Nat.mul_le_mul_left _ hlast)
  have hpiece : recipePiece p masterKey = fun es => mask (ks masterKey) (entriesToBytes es) :=
    funext fun es => hks.encrypt masterKey _
  have htail : (if entriesToBytes last = [] then [] else [entriesToBytes last]).flatMap
      (mask (ks masterKey)) = mask (ks masterKey) (entriesToBytes last) := by
    split
    · rename_i hnil
      rw [hnil]
      rfl
    · simp
  rw [entriesToBytes_append, entriesToBytes_flatten, ← flatMap_mask_pieces hn, hpieces,
    List.flatMap_append, htail, hpiece, List.flatMap_map, List.flatMap_def]

/-- **The file of an upload.** -/
theorem uploadRecipe_eq (hks : StreamMode p.crypto ks) {head : FileRecipeHead} {u : Upload}
    (hu : FreshRecipe head u.client) (entries : List (Bytes × RecipeEntry)) :
    uploadRecipe p u entries = head.toBytes ++
      mask (restart (recipeEntrySize * p.sendRecipeBatchSize) (ks u.client.masterKey))
        (entriesToBytes (entries.map Prod.snd)) := by
  obtain ⟨hinv, hkey, hhist⟩ := foldl_updateFileRecipe (p := p) hu.inv entries
  obtain ⟨qs, hfull, hfile, hall, hlt⟩ := hinv.tail
  rw [hhist, hu.history, List.nil_append] at hall
  rw [uploadRecipe, hfile, hkey, layout_eq_mask hks _ hfull hlt.le, ← hall]

/-! ## The restore -/

/-- Batches of whole entries, unmasked one by one. -/
theorem flatMap_entriesOfBytes {f : Bytes → Bytes} (hf : ∀ d, (f d).length = d.length)
    {qs : List Bytes} (hqs : ∀ q ∈ qs, recipeEntrySize ∣ q.length) :
    (qs.flatMap fun q => entriesOfBytes (q.length / recipeEntrySize) (f q)) =
      entriesOfBytes (qs.flatten.length / recipeEntrySize) (qs.flatMap f) := by
  induction qs with
  | nil => rfl
  | cons q qs ih =>
      obtain ⟨hq, hrest⟩ := List.forall_mem_cons.mp hqs
      have hlen : (f q).length = q.length / recipeEntrySize * recipeEntrySize := by
        rw [hf, Nat.div_mul_cancel hq]
      rw [List.flatMap_cons, List.flatMap_cons, List.flatten_cons, List.length_append,
        Nat.add_div_of_dvd_right hq, ih hrest, entriesOfBytes_append hlen]

/-- **What a restore decrypts**: the file unmasked with the key stream that starts
again at every batch of its own. -/
theorem readRecipe_eq (hks : StreamMode p.crypto ks) (masterKey : Bytes)
    (head : FileRecipeHead) {body : Bytes} (hbody : recipeEntrySize ∣ body.length) :
    (readRecipe p masterKey (head.toBytes ++ body)).2 =
      entriesOfBytes (body.length / recipeEntrySize)
        (mask (restart (recipeEntrySize * p.sendRecipeBatchSize) (ks masterKey)) body) := by
  have hn : 0 < recipeEntrySize * p.sendRecipeBatchSize :=
    Nat.mul_pos (by decide) p.sendRecipeBatchSize_pos
  have hdrop : (head.toBytes ++ body).drop fileRecipeHeadSize = body := by
    rw [← head.length_toBytes, List.drop_left]
  have hread : readPiece p masterKey = fun q =>
      entriesOfBytes (q.length / recipeEntrySize) (mask (ks masterKey) q) := by
    funext q
    rw [readPiece, hks.decrypt]
  rw [readRecipe, hdrop, hread, flatMap_entriesOfBytes (length_mask _)
    (dvd_length_of_mem_pieces hn (Nat.dvd_mul_right _ _) hbody), flatten_pieces hn,
    flatMap_mask_pieces hn]

/-- The entries in a string are these exactly when the string is their bytes. -/
theorem entriesOfBytes_eq_iff {n : Nat} {d : Bytes} {es : List RecipeEntry}
    (hd : d.length = n * recipeEntrySize) (hes : es.length = n) :
    entriesOfBytes n d = es ↔ d = entriesToBytes es := by
  constructor
  · intro h
    rw [← h, entriesToBytes_entriesOfBytes hd]
  · intro h
    rw [h, ← hes, entriesOfBytes_entriesToBytes]

/-! ## Upload and restore under different configurations -/

/-- Byte `j` of address `i` meets block `i % b`. -/
theorem restart_block (ks : Nat → UInt8) {b i j : Nat} (hb : 0 < b) (hj : j < recipeEntrySize) :
    restart (recipeEntrySize * b) ks (i * recipeEntrySize + j) =
      ks (i % b * recipeEntrySize + j) := by
  have hmod := Nat.mod_lt i hb
  have hsplit : i * recipeEntrySize + j =
      recipeEntrySize * b * (i / b) + (i % b * recipeEntrySize + j) := by
    conv_lhs => rw [← Nat.div_add_mod i b]
    ring
  have hlt : i % b * recipeEntrySize + j < recipeEntrySize * b := by
    calc i % b * recipeEntrySize + j
        < i % b * recipeEntrySize + recipeEntrySize := Nat.add_lt_add_left hj _
      _ = recipeEntrySize * (i % b + 1) := by ring
      _ ≤ recipeEntrySize * b := Nat.mul_le_mul_left _ hmod
  rw [restart, hsplit, Nat.mul_add_mod, Nat.mod_eq_of_lt hlt]

theorem keyBlock_eq_iff {ks : Nat → UInt8} {i i' : Nat} :
    keyBlock ks i = keyBlock ks i' ↔
      ∀ j < recipeEntrySize, ks (i * recipeEntrySize + j) = ks (i' * recipeEntrySize + j) := by
  simp [keyBlock]

/-- Two restarted streams agree on `n` addresses exactly when their blocks do. -/
theorem restart_eq_iff {ks : Nat → UInt8} {b₁ b₂ n : Nat} (h₁ : 0 < b₁) (h₂ : 0 < b₂) :
    (∀ i < n * recipeEntrySize,
      restart (recipeEntrySize * b₁) ks i = restart (recipeEntrySize * b₂) ks i) ↔
    ∀ i < n, keyBlock ks (i % b₁) = keyBlock ks (i % b₂) := by
  constructor
  · intro h i hi
    rw [keyBlock_eq_iff]
    intro j hj
    have hlt : i * recipeEntrySize + j < n * recipeEntrySize := by
      calc i * recipeEntrySize + j
          < i * recipeEntrySize + recipeEntrySize := Nat.add_lt_add_left hj _
        _ = (i + 1) * recipeEntrySize := by ring
        _ ≤ n * recipeEntrySize := Nat.mul_le_mul_right _ hi
    rw [← restart_block ks h₁ hj, ← restart_block ks h₂ hj, h _ hlt]
  · intro h i hi
    have hj : i % recipeEntrySize < recipeEntrySize := Nat.mod_lt _ (by decide)
    have hi' : i / recipeEntrySize < n := (Nat.div_lt_iff_lt_mul (by decide)).mpr hi
    have hcut : i / recipeEntrySize * recipeEntrySize + i % recipeEntrySize = i :=
      Nat.div_add_mod' i _
    rw [← hcut, restart_block ks h₁ hj, restart_block ks h₂ hj]
    exact keyBlock_eq_iff.mp (h _ hi') _ hj

/-- An address comes back exactly when both sides mask it with the same block. -/
theorem roundTrip_iff_blocks (hks : StreamMode p.crypto ks) {b₁ b₂ : Nat} (h₁ : 0 < b₁)
    (h₂ : 0 < b₂) {head : FileRecipeHead} {u : Upload} (hu : FreshRecipe head u.client)
    (entries : List (Bytes × RecipeEntry)) :
    (readRecipe (p.withRecipeBatch b₂ h₂) u.client.masterKey
      (uploadRecipe (p.withRecipeBatch b₁ h₁) u entries)).2 = entries.map Prod.snd ↔
    ∀ i < entries.length, keyBlock (ks u.client.masterKey) (i % b₁) =
      keyBlock (ks u.client.masterKey) (i % b₂) := by
  have hks₁ : StreamMode (p.withRecipeBatch b₁ h₁).crypto ks := hks
  have hks₂ : StreamMode (p.withRecipeBatch b₂ h₂).crypto ks := hks
  have hsize₁ : (p.withRecipeBatch b₁ h₁).sendRecipeBatchSize = b₁ := rfl
  have hsize₂ : (p.withRecipeBatch b₂ h₂).sendRecipeBatchSize = b₂ := rfl
  have hlen : (entriesToBytes (entries.map Prod.snd)).length =
      entries.length * recipeEntrySize := by
    rw [length_entriesToBytes, List.length_map]
  have hnum : (entriesToBytes (entries.map Prod.snd)).length / recipeEntrySize =
      entries.length := by
    rw [hlen, Nat.mul_div_cancel _ (by decide)]
  rw [uploadRecipe_eq hks₁ hu, readRecipe_eq hks₂ _ _
    (by rw [length_mask, hlen]; exact Nat.dvd_mul_left _ _), length_mask, hnum, hsize₁, hsize₂,
    entriesOfBytes_eq_iff (by rw [length_mask, length_mask, hlen]) (by rw [List.length_map]),
    mask_mask_eq_self_iff, hlen, restart_eq_iff h₁ h₂]

/-- No two of the first `n` blocks of a key stream are the same. -/
def BlocksDiffer (ks : Nat → UInt8) (n : Nat) : Prop :=
  ∀ ⦃i j⦄, i < n → j < n → keyBlock ks i = keyBlock ks j → i = j

/-- Two different sizes cut a list at different places as soon as it is longer
than the smaller of them. -/
theorem mod_eq_mod_iff {b₁ b₂ n : Nat} (h₁ : 0 < b₁) (h₂ : 0 < b₂) :
    (∀ i < n, i % b₁ = i % b₂) ↔ b₁ = b₂ ∨ n ≤ min b₁ b₂ := by
  constructor
  · intro h
    by_contra hne
    rw [not_or, not_le] at hne
    obtain ⟨hne, hlt⟩ := hne
    rcases Nat.lt_or_gt_of_ne hne with hless | hless
    · have hcut := h b₁ (by omega)
      rw [Nat.mod_self, Nat.mod_eq_of_lt hless] at hcut
      omega
    · have hcut := h b₂ (by omega)
      rw [Nat.mod_self, Nat.mod_eq_of_lt hless] at hcut
      omega
  · rintro (rfl | hle) i hi
    · rfl
    · rw [Nat.mod_eq_of_lt (by omega), Nat.mod_eq_of_lt (by omega)]

/-- **A recipe under two configurations.**  The addresses of an upload come back when
both sides use the same batch size or the file fits into one batch of either side;
and only then, if the blocks of the key stream are different, as they are in counter
mode. -/
theorem recipe_roundTrip_iff (p : Params) (ks : Bytes → Nat → UInt8)
    (hks : StreamMode p.crypto ks) (b₁ b₂ : Nat) (h₁ : 0 < b₁) (h₂ : 0 < b₂)
    (head : FileRecipeHead) (u : Upload) (hu : FreshRecipe head u.client)
    (entries : List (Bytes × RecipeEntry)) :
    (b₁ = b₂ ∨ entries.length ≤ min b₁ b₂ →
      (readRecipe (p.withRecipeBatch b₂ h₂) u.client.masterKey
        (uploadRecipe (p.withRecipeBatch b₁ h₁) u entries)).2 = entries.map Prod.snd) ∧
    (BlocksDiffer (ks u.client.masterKey) (max b₁ b₂) →
      (readRecipe (p.withRecipeBatch b₂ h₂) u.client.masterKey
        (uploadRecipe (p.withRecipeBatch b₁ h₁) u entries)).2 = entries.map Prod.snd →
      b₁ = b₂ ∨ entries.length ≤ min b₁ b₂) := by
  rw [roundTrip_iff_blocks hks h₁ h₂ hu, ← mod_eq_mod_iff h₁ h₂]
  constructor
  · intro hcut i hi
    rw [hcut i hi]
  · intro hdiffer hblocks i hi
    have hlt₁ : i % b₁ < max b₁ b₂ := (Nat.mod_lt i h₁).trans_le (le_max_left _ _)
    have hlt₂ : i % b₂ < max b₁ b₂ := (Nat.mod_lt i h₂).trans_le (le_max_right _ _)
    exact hdiffer hlt₁ hlt₂ (hblocks i hi)

/-- A key stream whose block `i` is made of the byte `i`. -/
def countingStream (i : Nat) : UInt8 := UInt8.ofNat (i / recipeEntrySize)

/-- The small interface with this stream behind `EncryptWithKey`. -/
def countingCrypto : Crypto :=
  { maskCrypto with
    encryptWithKey := fun _ d => mask countingStream d
    decryptWithKey := fun _ d => mask countingStream d
    length_encryptWithKey := fun _ d => length_mask countingStream d
    decryptWithKey_encryptWithKey := fun _ _ => mask_mask_eq_self_iff.mpr fun _ _ => rfl }

def countingParams : Params := { smallParams with crypto := countingCrypto }

theorem countingStream_mode : StreamMode countingParams.crypto fun _ => countingStream :=
  ⟨fun _ _ => rfl, fun _ _ => rfl⟩

/-- The small client with the head of its recipe written. -/
def headedUpload : Upload :=
  { smallUpload with client :=
      { smallUpload.client with recipeFile := (⟨0, 0⟩ : FileRecipeHead).toBytes } }

theorem headedUpload_fresh : FreshRecipe ⟨0, 0⟩ headedUpload.client := ⟨rfl, rfl, rfl⟩

/-- Two addresses, uploaded one by one and restored two at a time, do not come
back. -/
theorem recipe_lost_batch_one_two :
    (readRecipe (countingParams.withRecipeBatch 2 (by decide)) headedUpload.client.masterKey
      (uploadRecipe (countingParams.withRecipeBatch 1 (by decide)) headedUpload
        [([], .ofBytes [1]), ([], .ofBytes [2])])).2 ≠ [.ofBytes [1], .ofBytes [2]] := by
  intro hread
  have hblocks := (roundTrip_iff_blocks countingStream_mode (by decide) (by decide)
    headedUpload_fresh [([], .ofBytes [1]), ([], .ofBytes [2])]).mp hread 1 (by decide)
  exact absurd hblocks (by decide)

theorem countingStream_blocksDiffer : BlocksDiffer countingStream 2 := by
  intro i j hi hj
  obtain rfl | rfl := Nat.le_one_iff_eq_zero_or_eq_one.mp (Nat.lt_succ_iff.mp hi) <;>
    obtain rfl | rfl := Nat.le_one_iff_eq_zero_or_eq_one.mp (Nat.lt_succ_iff.mp hj) <;> decide

/-- One address fits into one batch of either side, two do not. -/
theorem recipe_roundTrip_one_entry :
    (readRecipe (countingParams.withRecipeBatch 2 (by decide)) headedUpload.client.masterKey
      (uploadRecipe (countingParams.withRecipeBatch 1 (by decide)) headedUpload
        [([], .ofBytes [1])])).2 = [.ofBytes [1]] ∧
    (readRecipe (countingParams.withRecipeBatch 2 (by decide)) headedUpload.client.masterKey
      (uploadRecipe (countingParams.withRecipeBatch 1 (by decide)) headedUpload
        [([], .ofBytes [1]), ([], .ofBytes [2])])).2 ≠ [.ofBytes [1], .ofBytes [2]] := by
  have hrecipe := recipe_roundTrip_iff countingParams _ countingStream_mode 1 2 (by decide)
    (by decide) ⟨0, 0⟩ headedUpload headedUpload_fresh
  constructor
  · exact (hrecipe [([], .ofBytes [1])]).1 (.inr (by decide))
  · intro hread
    have hsize := (hrecipe [([], .ofBytes [1]), ([], .ofBytes [2])]).2
      countingStream_blocksDiffer hread
    exact absurd hsize (by decide)

end Debe
