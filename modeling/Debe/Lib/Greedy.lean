import Mathlib.Data.List.Infix
import Mathlib.Tactic.Common

/-!
# Cutting a list greedily

A rule says of a list how long its first piece is.  Cut it off, and go on with the rest.  A
rule with lookahead `most` depends on that many elements only, so it can be applied to a
window of the list as long as the window is that long or reaches the end.
-/

namespace Greedy

variable {α : Type*} {cut : List α → Nat} {least most : Nat} {l : List α} {pieces : List (List α)}

/-- The pieces of a list. -/
inductive Cuts (cut : List α → Nat) : List α → List (List α) → Prop
  | nil : Cuts cut [] []
  | cons {l : List α} {pieces : List (List α)} (hl : l ≠ [])
      (hrest : Cuts cut (l.drop (cut l)) pieces) : Cuts cut l (l.take (cut l) :: pieces)

/-- A rule whose pieces have between `least` and `most` elements, except for a shorter one at
the end, and depend on the first `most` elements only. -/
structure Rule (cut : List α → Nat) (least most : Nat) : Prop where
  pos : ∀ l, l ≠ [] → 0 < cut l
  le_length : ∀ l, cut l ≤ l.length
  le_most : ∀ l, cut l ≤ most
  le_cut : ∀ l, least ≤ cut l ∨ cut l = l.length
  lookahead : ∀ l l', l.take most = l'.take most → cut l = cut l'

/-- Every list has its pieces. -/
theorem Rule.exists_cuts (h : Rule cut least most) (l : List α) : ∃ pieces, Cuts cut l pieces := by
  induction hn : l.length using Nat.strongRecOn generalizing l with
  | ind n ih =>
      by_cases hl : l = []
      · exact ⟨[], hl ▸ .nil⟩
      · have hpos := h.pos l hl
        have hlt : (l.drop (cut l)).length < n := by
          have hlen := List.length_pos_of_ne_nil hl
          rw [List.length_drop]
          omega
        obtain ⟨pieces, hpieces⟩ := ih _ hlt _ rfl
        exact ⟨_, .cons hl hpieces⟩

/-- The pieces make up the list. -/
theorem Cuts.flatten (h : Cuts cut l pieces) : pieces.flatten = l := by
  induction h with
  | nil => rfl
  | cons hl _ ih => rw [List.flatten_cons, ih, List.take_append_drop]

/-- A list with elements has a first piece. -/
theorem Cuts.head (h : Cuts cut l pieces) (hl : l ≠ []) :
    ∃ rest, pieces = l.take (cut l) :: rest ∧ Cuts cut (l.drop (cut l)) rest := by
  cases h with
  | nil => exact absurd rfl hl
  | cons _ hrest => exact ⟨_, rfl, hrest⟩

/-- An empty list has no piece. -/
theorem Cuts.eq_nil (h : Cuts cut l pieces) (hl : l = []) : pieces = [] := by
  cases h with
  | nil => rfl
  | cons hne _ => exact absurd hl hne

/-- There is one way to cut. -/
theorem Cuts.unique (h : Cuts cut l pieces) {pieces' : List (List α)} (h' : Cuts cut l pieces') :
    pieces = pieces' := by
  induction h generalizing pieces' with
  | nil =>
      cases h' with
      | nil => rfl
      | cons hl _ => exact absurd rfl hl
  | cons hl _ ih =>
      cases h' with
      | nil => exact absurd rfl hl
      | cons _ hrest' => rw [ih hrest']

/-- There are at most as many pieces as elements. -/
theorem Cuts.length_le (hrule : Rule cut least most) (h : Cuts cut l pieces) :
    pieces.length ≤ l.length := by
  induction h with
  | nil => exact Nat.le_refl 0
  | @cons l pieces hl _ ih =>
      have hpos := hrule.pos l hl
      have hlen := List.length_pos_of_ne_nil hl
      rw [List.length_drop] at ih
      rw [List.length_cons]
      omega

/-- **Sizes.**  A piece has at least one element and at most `most`, and at least `least` if
it is not the last. -/
theorem Cuts.sizes (hrule : Rule cut least most) (h : Cuts cut l pieces) {pre post : List (List α)}
    {piece : List α} (hcut : pieces = pre ++ piece :: post) :
    0 < piece.length ∧ piece.length ≤ most ∧ (post ≠ [] → least ≤ piece.length) := by
  induction h generalizing pre with
  | nil => simp at hcut
  | @cons l pieces hl hrest ih =>
      cases pre with
      | cons first pre =>
          rw [List.cons_append, List.cons.injEq] at hcut
          exact ih hcut.2
      | nil =>
          rw [List.nil_append, List.cons.injEq] at hcut
          obtain ⟨rfl, rfl⟩ := hcut
          have hlen : (l.take (cut l)).length = cut l :=
            List.length_take_of_le (hrule.le_length l)
          rw [hlen]
          refine ⟨hrule.pos l hl, hrule.le_most l, fun hpost => ?_⟩
          rcases hrule.le_cut l with hle | hall
          · exact hle
          · -- the piece was all there was
            rw [hall, List.drop_length] at hrest
            cases hrest with
            | nil => exact absurd rfl hpost
            | cons hne _ => exact absurd rfl hne

/-- **A window** that is long enough, or reaches to the end, has the same first piece. -/
theorem Rule.window (h : Rule cut least most) {window : List α} (hbegins : window <+: l)
    (hlong : most ≤ window.length ∨ window = l) :
    cut window = cut l ∧ window.take (cut l) = l.take (cut l) := by
  obtain ⟨rest, rfl⟩ := hbegins
  rcases hlong with hlong | hall
  · have htake : window.take most = (window ++ rest).take most :=
      (List.take_append_of_le_length hlong).symm
    have hcut := h.lookahead _ _ htake
    refine ⟨hcut, (List.take_append_of_le_length ?_).symm⟩
    exact Nat.le_trans (h.le_most _) hlong
  · rw [← hall]
    exact ⟨rfl, rfl⟩

end Greedy
