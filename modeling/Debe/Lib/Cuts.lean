import Mathlib.Data.Finset.Card
import Mathlib.Data.List.Infix

/-!
# Cutting a stream where the number of distinct elements reaches a cap

A consumer that collects a stream and closes a run as soon as the run holds
`cap` distinct elements cuts the stream into *full* runs and one open rest.  A
proper prefix of a full run is never full, so there is only one way to cut, and
the rest is empty exactly when the stream is a concatenation of full runs.

The same for groups of a fixed size: a stream has only one division into groups
of size `n` followed by a non-empty last one of at most that size.
-/

namespace Cuts

variable {α : Type*} [DecidableEq α] {cap : Nat}

/-- The number of distinct elements of a run. -/
def distinct (l : List α) : Nat :=
  l.toFinset.card

/-- A run with `cap` distinct elements, the last of them brought by its last
element. -/
def Full (cap : Nat) (r : List α) : Prop :=
  distinct r = cap ∧ distinct r.dropLast < cap

@[simp] theorem distinct_nil : distinct ([] : List α) = 0 := rfl

theorem distinct_concat_of_mem {l : List α} {a : α} (h : a ∈ l) :
    distinct (l ++ [a]) = distinct l := by
  have heq : (l ++ [a]).toFinset = l.toFinset := by
    ext b
    simp only [List.mem_toFinset, List.mem_append, List.mem_singleton]
    constructor
    · intro hb
      rcases hb with hb | hb
      · exact hb
      · exact hb ▸ h
    · exact Or.inl
  rw [distinct, heq, distinct]

theorem distinct_concat_of_not_mem {l : List α} {a : α} (h : a ∉ l) :
    distinct (l ++ [a]) = distinct l + 1 := by
  have heq : (l ++ [a]).toFinset = insert a l.toFinset := by
    ext b
    simp
  rw [distinct, heq, Finset.card_insert_of_notMem (by simpa using h), distinct]

theorem distinct_le_of_prefix {l l' : List α} (h : l <+: l') : distinct l ≤ distinct l' := by
  apply Finset.card_le_card
  intro a ha
  rw [List.mem_toFinset] at ha ⊢
  exact h.subset ha

/-- An open run closed by its next element is full. -/
theorem Full.of_concat {l : List α} {a : α} (hopen : distinct l < cap)
    (hfull : distinct (l ++ [a]) = cap) : Full cap (l ++ [a]) :=
  ⟨hfull, by rwa [List.dropLast_concat]⟩

/-- A prefix of a full run that is full itself is the whole run. -/
theorem Full.eq_of_prefix {r r' : List α} (h : Full cap r) (h' : Full cap r') (hp : r' <+: r) :
    r' = r := by
  obtain ⟨t, rfl⟩ := hp
  by_cases ht : t = []
  · simp [ht]
  · -- what is left of `r` after dropping its last element still holds all of `r'`
    have hpre : r' <+: (r' ++ t).dropLast := by
      rw [List.dropLast_append_of_ne_nil ht]
      exact List.prefix_append _ _
    have hle := distinct_le_of_prefix hpre
    have h₁ : distinct r' = cap := h'.1
    have h₂ : distinct (r' ++ t).dropLast < cap := h.2
    omega

/-- Two full runs at the front of the same stream are equal. -/
theorem Full.eq_of_append_eq {r r' s s' : List α} (h : Full cap r) (h' : Full cap r')
    (heq : r ++ s = r' ++ s') : r = r' := by
  rcases List.prefix_or_prefix_of_prefix (List.prefix_append r s)
    (heq ▸ List.prefix_append r' s') with hp | hp
  · exact h'.eq_of_prefix h hp
  · exact (h.eq_of_prefix h' hp).symm

/-- **One way to cut.**  Two cuts of the same stream into full runs and an open
rest are the same cut. -/
theorem cut_unique {rs rs' : List (List α)} {rest rest' : List α}
    (hfull : ∀ r ∈ rs, Full cap r) (hopen : distinct rest < cap)
    (hfull' : ∀ r ∈ rs', Full cap r) (hopen' : distinct rest' < cap)
    (heq : rs.flatten ++ rest = rs'.flatten ++ rest') : rs = rs' ∧ rest = rest' := by
  have hstart : ∀ {r : List α} {qs : List (List α)} {o o' : List α}, Full cap r →
      distinct o < cap → o = r ++ (qs.flatten ++ o') → False := by
    intro r qs o o' hr ho h
    have hle := distinct_le_of_prefix (List.prefix_append r (qs.flatten ++ o'))
    have h₁ : distinct r = cap := hr.1
    rw [← h] at hle
    omega
  induction rs generalizing rs' with
  | nil =>
      cases rs' with
      | nil => exact ⟨rfl, by simpa using heq⟩
      | cons r' rs' =>
          exact (hstart (hfull' r' List.mem_cons_self) hopen (by simpa using heq)).elim
  | cons r rs ih =>
      have hr : Full cap r := hfull r List.mem_cons_self
      cases rs' with
      | nil => exact (hstart hr hopen' (by simpa using heq.symm)).elim
      | cons r' rs' =>
          have hr' : Full cap r' := hfull' r' List.mem_cons_self
          simp only [List.flatten_cons, List.append_assoc] at heq
          have hrr : r = r' := hr.eq_of_append_eq hr' heq
          subst hrr
          obtain ⟨h₁, h₂⟩ := ih (fun q hq => hfull q (List.mem_cons_of_mem _ hq))
            (fun q hq => hfull' q (List.mem_cons_of_mem _ hq)) (List.append_cancel_left heq)
          exact ⟨by rw [h₁], h₂⟩

/-- The rest is empty exactly when the stream is a concatenation of full runs. -/
theorem rest_eq_nil_iff {rs : List (List α)} {rest : List α}
    (hfull : ∀ r ∈ rs, Full cap r) (hopen : distinct rest < cap) :
    rest = [] ↔ ∃ rs' : List (List α), (∀ r ∈ rs', Full cap r) ∧
      rs'.flatten = rs.flatten ++ rest := by
  constructor
  · intro h
    exact ⟨rs, hfull, by simp [h]⟩
  · intro h
    obtain ⟨rs', hfull', heq⟩ := h
    have hpos : distinct ([] : List α) < cap := by
      rw [distinct_nil]
      omega
    exact (cut_unique hfull hopen hfull' hpos (by rw [heq, List.append_nil])).2

omit [DecidableEq α] in
/-- **One way to group.** -/
theorem groups_unique {n : Nat} {gs gs' : List (List α)} {last last' : List α}
    (hgs : ∀ g ∈ gs, g.length = n) (hle : last.length ≤ n) (hne : last ≠ [])
    (hgs' : ∀ g ∈ gs', g.length = n) (hle' : last'.length ≤ n) (hne' : last' ≠ [])
    (heq : gs.flatten ++ last = gs'.flatten ++ last') : gs = gs' ∧ last = last' := by
  -- a last group cannot hold a whole group and a further non-empty one
  have hlong : ∀ {g : List α} {qs : List (List α)} {o o' : List α}, g.length = n →
      o.length ≤ n → o' ≠ [] → o = g ++ (qs.flatten ++ o') → False := by
    intro g qs o o' hg ho ho' h
    have hlen := congrArg List.length h
    have hpos := List.length_pos_iff.mpr ho'
    simp only [List.length_append] at hlen
    omega
  induction gs generalizing gs' with
  | nil =>
      cases gs' with
      | nil => exact ⟨rfl, by simpa using heq⟩
      | cons g' gs' =>
          exact (hlong (hgs' g' List.mem_cons_self) hle hne' (by simpa using heq)).elim
  | cons g gs ih =>
      have hg : g.length = n := hgs g List.mem_cons_self
      cases gs' with
      | nil => exact (hlong hg hle' hne (by simpa using heq.symm)).elim
      | cons g' gs' =>
          simp only [List.flatten_cons, List.append_assoc] at heq
          obtain ⟨hgg, hrest⟩ := List.append_inj heq (hg.trans (hgs' g' List.mem_cons_self).symm)
          obtain ⟨h₁, h₂⟩ := ih (fun q hq => hgs q (List.mem_cons_of_mem _ hq))
            (fun q hq => hgs' q (List.mem_cons_of_mem _ hq)) hrest
          exact ⟨by rw [hgg, h₁], h₂⟩

end Cuts
