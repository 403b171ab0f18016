import Mathlib.Tactic.Common
import Mathlib.Data.Finset.Card

/-!
# The first of every kind

Of a list whose elements have keys, the elements whose key was not there before.  This is what a
store that deduplicates is meant to keep: one element for each key, in the order of arrival.  Its
index has an address for every key that was seen, at which the first element with the key is held.
-/

namespace Firsts

variable {α κ : Type*} [DecidableEq κ] (key : α → κ)

/-- Keep an element unless its key is there. -/
def keep (kept : List α) (a : α) : List α :=
  if key a ∈ kept.map key then kept else kept ++ [a]

/-- The elements with a new key, in order. -/
def firsts (l : List α) : List α :=
  l.foldl (keep key) []

@[simp] theorem firsts_nil : firsts key [] = [] := rfl

theorem firsts_concat (l : List α) (a : α) :
    firsts key (l ++ [a]) = keep key (firsts key l) a := by
  rw [firsts, List.foldl_append, List.foldl_cons, List.foldl_nil, firsts]

variable {key} {l : List α} {a : α}

theorem keep_of_mem {kept : List α} (h : key a ∈ kept.map key) : keep key kept a = kept :=
  if_pos h

theorem keep_of_not_mem {kept : List α} (h : key a ∉ kept.map key) :
    keep key kept a = kept ++ [a] :=
  if_neg h

/-- Every key has a first element. -/
theorem mem_map_firsts {k : κ} : k ∈ (firsts key l).map key ↔ k ∈ l.map key := by
  induction l using List.reverseRecOn with
  | nil => simp
  | append_singleton l a ih =>
      rw [firsts_concat, List.map_append, List.mem_append, ← ih, List.map_singleton,
        List.mem_singleton]
      by_cases ha : key a ∈ (firsts key l).map key
      · rw [keep_of_mem ha]
        constructor
        · exact Or.inl
        · rintro (hk | rfl)
          · exact hk
          · exact ha
      · rw [keep_of_not_mem ha, List.map_append, List.mem_append, List.map_singleton,
          List.mem_singleton]

theorem firsts_concat_of_mem (h : key a ∈ l.map key) :
    firsts key (l ++ [a]) = firsts key l := by
  rw [firsts_concat, keep_of_mem (mem_map_firsts.mpr h)]

theorem firsts_concat_of_not_mem (h : key a ∉ l.map key) :
    firsts key (l ++ [a]) = firsts key l ++ [a] := by
  rw [firsts_concat, keep_of_not_mem fun hk => h (mem_map_firsts.mp hk)]

/-- They come in the order of the list. -/
theorem firsts_sublist (l : List α) : (firsts key l).Sublist l := by
  induction l using List.reverseRecOn with
  | nil => exact List.Sublist.slnil
  | append_singleton l a ih =>
      by_cases ha : key a ∈ l.map key
      · rw [firsts_concat_of_mem ha]
        exact ih.trans (List.sublist_append_left l [a])
      · rw [firsts_concat_of_not_mem ha]
        exact ih.append (List.Sublist.refl [a])

theorem mem_of_mem_firsts (h : a ∈ firsts key l) : a ∈ l :=
  (firsts_sublist l).subset h

/-- **No key twice.** -/
theorem nodup_map_firsts (key : α → κ) (l : List α) : ((firsts key l).map key).Nodup := by
  induction l using List.reverseRecOn with
  | nil => exact List.nodup_nil
  | append_singleton l a ih =>
      by_cases ha : key a ∈ l.map key
      · rwa [firsts_concat_of_mem ha]
      · rw [firsts_concat_of_not_mem ha, List.map_append, List.map_singleton,
          ← List.concat_eq_append]
        exact ih.concat fun hk => ha (mem_map_firsts.mp hk)

/-- There are as many as there are keys. -/
theorem length_firsts (key : α → κ) (l : List α) :
    (firsts key l).length = (l.map key).toFinset.card := by
  have hset : (l.map key).toFinset = ((firsts key l).map key).toFinset := by
    ext k
    rw [List.mem_toFinset, List.mem_toFinset, mem_map_firsts]
  rw [hset, List.toFinset_card_of_nodup (nodup_map_firsts key l), List.length_map]

/-- Keys that tell the same elements apart keep the same elements. -/
theorem firsts_congr {κ' : Type*} [DecidableEq κ'] {key' : α → κ'}
    (h : ∀ a ∈ l, ∀ b ∈ l, key a = key b ↔ key' a = key' b) : firsts key l = firsts key' l := by
  induction l using List.reverseRecOn with
  | nil => rfl
  | append_singleton l a ih =>
      have hl := ih fun b hb c hc => h b (List.mem_append_left _ hb) c (List.mem_append_left _ hc)
      have hmem : key a ∈ l.map key ↔ key' a ∈ l.map key' := by
        rw [List.mem_map, List.mem_map]
        refine exists_congr fun b => and_congr_right fun hb => ?_
        exact h b (List.mem_append_left _ hb) a
          (List.mem_append_right _ (List.mem_singleton_self a))
      by_cases ha : key a ∈ l.map key
      · rw [firsts_concat_of_mem ha, firsts_concat_of_mem (hmem.mp ha), hl]
      · rw [firsts_concat_of_not_mem ha, firsts_concat_of_not_mem fun hk => ha (hmem.mpr hk), hl]

/-- The first images are the images of the first. -/
theorem firsts_map {β : Type*} (f : β → α) (l : List β) :
    firsts key (l.map f) = (firsts (key ∘ f) l).map f := by
  induction l using List.reverseRecOn with
  | nil => rfl
  | append_singleton l b ih =>
      rw [List.map_append, List.map_singleton]
      by_cases hb : key (f b) ∈ (l.map f).map key
      · rw [firsts_concat_of_mem hb, ih, firsts_concat_of_mem (by rwa [List.map_map] at hb)]
      · rw [firsts_concat_of_not_mem hb, ih,
          firsts_concat_of_not_mem (by rwa [List.map_map] at hb), List.map_append,
          List.map_singleton]

/-! ## An index -/

section Index

variable {β : Type*} {seen : List α} {lookup lookup' : κ → Option β} {Held Held' : β → α → Prop}
  {b : β}

/-- The index has addresses for the keys that were seen and no others, and at the address of a
key the first element with the key is held. -/
structure Indexes (key : α → κ) (seen : List α) (lookup : κ → Option β) (Held : β → α → Prop) :
    Prop where
  known : ∀ k, (lookup k).isSome ↔ k ∈ seen.map key
  placed : ∀ k b, lookup k = some b → ∃ a ∈ firsts key seen, key a = k ∧ Held b a

theorem Indexes.lookup_eq_none (h : Indexes key seen lookup Held) {k : κ} :
    lookup k = none ↔ k ∉ seen.map key := by
  rw [← h.known k]
  cases lookup k <;> simp

/-- What is held may be held elsewhere. -/
theorem Indexes.mono (h : Indexes key seen lookup Held)
    (hkeep : ∀ b, ∀ a ∈ seen, Held b a → Held' b a) : Indexes key seen lookup Held' where
  known := h.known
  placed := by
    intro k b hlook
    obtain ⟨a, ha, hkey, hat⟩ := h.placed k b hlook
    exact ⟨a, ha, hkey, hkeep b a (mem_of_mem_firsts ha) hat⟩

/-- An element whose key is known. -/
theorem Indexes.again (h : Indexes key seen lookup Held) (hmem : key a ∈ seen.map key) :
    Indexes key (seen ++ [a]) lookup Held where
  known := by
    intro k
    rw [h.known, List.map_append, List.mem_append, List.map_singleton, List.mem_singleton]
    constructor
    · exact Or.inl
    · rintro (hk | rfl)
      · exact hk
      · exact hmem
  placed := by
    rw [firsts_concat_of_mem hmem]
    exact h.placed

/-- **An element with a new key** is held at the address that the key gets. -/
theorem Indexes.new (h : Indexes key seen lookup Held) (hnew : key a ∉ seen.map key)
    (hself : lookup' (key a) = some b) (hothers : ∀ k, k ≠ key a → lookup' k = lookup k)
    (hat : Held' b a) (hkeep : ∀ b a, Held b a → Held' b a) :
    Indexes key (seen ++ [a]) lookup' Held' where
  known := by
    intro k
    rw [List.map_append, List.mem_append, List.map_singleton, List.mem_singleton, ← h.known k]
    by_cases hk : k = key a
    · rw [hk, hself]
      simp
    · rw [hothers k hk]
      simp [hk]
  placed := by
    intro k b' hlook
    rw [firsts_concat_of_not_mem hnew]
    by_cases hk : k = key a
    · rw [hk, hself] at hlook
      obtain rfl := Option.some.inj hlook
      exact ⟨a, List.mem_append_right _ (List.mem_singleton_self _), hk.symm, hat⟩
    · rw [hothers k hk] at hlook
      obtain ⟨c, hc, hkey, hheld⟩ := h.placed k b' hlook
      exact ⟨c, List.mem_append_left _ hc, hkey, hkeep _ _ hheld⟩

/-- An index of nothing. -/
theorem indexes_nil (key : α → κ) {lookup : κ → Option β} (Held : β → α → Prop)
    (h : ∀ k, lookup k = none) : Indexes key [] lookup Held where
  known := by simp [h]
  placed := by simp [h]

end Index

end Firsts
