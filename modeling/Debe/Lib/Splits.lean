import Mathlib.Data.List.Induction
import Mathlib.Tactic.Common

/-!
# Splitting a stream with an open piece

A consumer keeps an open piece.  Before an element is added it decides from the piece and the
element whether to hand the piece over and start a new one.  What is handed over depends on the
stream only, since the decision does.

`Built` are the pieces that can be open: a fact about them is an induction on how they were
built, and holds of the pieces that were handed over and of the open one at every moment.
-/

namespace Splits

/-- The pieces that were handed over, and the open one. -/
structure State (α : Type*) where
  closed : List (List α)
  current : List α

variable {α σ ε : Type*} (closes : List α → α → Prop) [∀ l a, Decidable (closes l a)]

/-- The next element. -/
def step (s : State α) (a : α) : State α :=
  if closes s.current a then ⟨s.closed ++ [s.current], [a]⟩ else ⟨s.closed, s.current ++ [a]⟩

/-- All elements of a stream. -/
def run (l : List α) : State α := l.foldl (step closes) ⟨[], []⟩

/-- The pieces of a stream, the open one with them if there is anything in it. -/
def pieces (l : List α) : List (List α) :=
  (run closes l).closed ++ if (run closes l).current.isEmpty then [] else [(run closes l).current]

/-- A piece that can be open. -/
inductive Built (closes : List α → α → Prop) : List α → Prop
  | single (a : α) : Built closes [a]
  | grow {l : List α} {a : α} (hl : Built closes l) (hopen : ¬ closes l a) :
      Built closes (l ++ [a])

variable {closes}

omit [∀ l a, Decidable (closes l a)] in
theorem Built.ne_nil {l : List α} (h : Built closes l) : l ≠ [] := by
  cases h with
  | single a => simp
  | grow _ _ => simp

@[simp] theorem run_nil : run closes ([] : List α) = ⟨[], []⟩ := rfl

theorem run_concat (l : List α) (a : α) : run closes (l ++ [a]) = step closes (run closes l) a := by
  rw [run, List.foldl_append]
  rfl

theorem step_close {s : State α} {a : α} (h : closes s.current a) :
    step closes s a = ⟨s.closed ++ [s.current], [a]⟩ := if_pos h

theorem step_open {s : State α} {a : α} (h : ¬ closes s.current a) :
    step closes s a = ⟨s.closed, s.current ++ [a]⟩ := if_neg h

/-- Nothing is lost. -/
theorem flatten_run (l : List α) :
    (run closes l).closed.flatten ++ (run closes l).current = l := by
  induction l using List.reverseRecOn with
  | nil => rfl
  | append_singleton l a ih =>
      rw [run_concat]
      by_cases h : closes (run closes l).current a
      · rw [step_close h, List.flatten_append, List.flatten_singleton, ih]
      · rw [step_open h, ← List.append_assoc, ih]

theorem flatten_pieces (l : List α) : (pieces closes l).flatten = l := by
  have hrun : (run closes l).closed.flatten ++ (run closes l).current = l := flatten_run l
  rw [pieces, List.flatten_append]
  by_cases hcur : (run closes l).current = []
  · rw [hcur, List.append_nil] at hrun
    rw [hcur, List.isEmpty_nil, if_pos rfl, List.flatten_nil, List.append_nil, hrun]
  · have hne : ¬ (run closes l).current.isEmpty := by rwa [List.isEmpty_iff]
    rw [if_neg hne, List.flatten_singleton, hrun]

/-- **Every piece is built.**  An empty piece is not handed over. -/
theorem built_run (hempty : ∀ a, ¬ closes [] a) (l : List α) :
    (∀ piece ∈ (run closes l).closed, Built closes piece) ∧
      ((run closes l).current = [] ∨ Built closes (run closes l).current) := by
  induction l using List.reverseRecOn with
  | nil => exact ⟨by simp, Or.inl rfl⟩
  | append_singleton l a ih =>
      obtain ⟨hclosed, hcur⟩ := ih
      rw [run_concat]
      by_cases h : closes (run closes l).current a
      · have hbuilt : Built closes (run closes l).current := by
          rcases hcur with hnil | hbuilt
          · rw [hnil] at h
            exact absurd h (hempty a)
          · exact hbuilt
        rw [step_close h]
        refine ⟨fun piece hpiece => ?_, Or.inr (.single a)⟩
        rcases List.mem_append.mp hpiece with hpiece | hpiece
        · exact hclosed piece hpiece
        · rw [List.mem_singleton.mp hpiece]
          exact hbuilt
      · rw [step_open h]
        refine ⟨hclosed, Or.inr ?_⟩
        rcases hcur with hnil | hbuilt
        · rw [hnil]
          exact .single a
        · exact hbuilt.grow h

theorem built_pieces (hempty : ∀ a, ¬ closes [] a) (l : List α) :
    ∀ piece ∈ pieces closes l, Built closes piece := by
  obtain ⟨hclosed, hcur⟩ := built_run hempty l
  intro piece hpiece
  rcases List.mem_append.mp hpiece with hpiece | hpiece
  · exact hclosed piece hpiece
  · split at hpiece
    · cases hpiece
    · rename_i hne
      rw [List.isEmpty_iff] at hne
      rw [List.mem_singleton.mp hpiece]
      exact hcur.resolve_left hne

/-! ## A consumer -/

variable {τ : Type*} {body : σ × τ → α → Except ε (σ × τ)} {s : σ} {t : τ}

/-- The consumer's memory `t` holds the open piece, and what it did is what comes of the pieces
it handed over. -/
def Consumed (closes : List α → α → Prop) [∀ l a, Decidable (closes l a)]
    (process : List α → σ → Except ε σ) (Holds : τ → List α → Prop) (s : σ) (l : List α)
    (result : Except ε (σ × τ)) : Prop :=
  ∃ t', Holds t' (run closes l).current ∧
    result = ((run closes l).closed.foldlM (fun s piece => process piece s) s).map (·, t')

/-- **Consumer rule.**  A body that keeps the open piece in memory and hands it over when it
closes does to its state what the pieces do, one after the other. -/
theorem consumed_foldlM (process : List α → σ → Except ε σ) (Holds : τ → List α → Prop)
    (hstart : Holds t [])
    (hclose : ∀ cur a t, closes cur a → Holds t cur →
      ∃ t', Holds t' [a] ∧ ∀ s, body (s, t) a = (process cur s).map (·, t'))
    (hopen : ∀ cur a t, ¬ closes cur a → Holds t cur →
      ∃ t', Holds t' (cur ++ [a]) ∧ ∀ s, body (s, t) a = .ok (s, t')) (l : List α) :
    Consumed closes process Holds s l (l.foldlM body (s, t)) := by
  induction l using List.reverseRecOn with
  | nil => exact ⟨t, hstart, rfl⟩
  | append_singleton l a ih =>
      obtain ⟨t₁, hheld, hrun⟩ := ih
      rw [Consumed, run_concat, List.foldlM_append, hrun]
      by_cases h : closes (run closes l).current a
      · obtain ⟨t₂, hheld₂, hbody⟩ := hclose _ a t₁ h hheld
        rw [step_close h]
        refine ⟨t₂, hheld₂, ?_⟩
        rw [List.foldlM_append]
        cases (run closes l).closed.foldlM (fun s piece => process piece s) s with
        | error e => rfl
        | ok s₁ =>
            change body (s₁, t₁) a >>= _ = (process _ s₁ >>= _).map _
            rw [hbody]
            cases process (run closes l).current s₁ with
            | error e => rfl
            | ok s₂ => rfl
      · obtain ⟨t₂, hheld₂, hbody⟩ := hopen _ a t₁ h hheld
        rw [step_open h]
        refine ⟨t₂, hheld₂, ?_⟩
        cases (run closes l).closed.foldlM (fun s piece => process piece s) s with
        | error e => rfl
        | ok s₁ =>
            change body (s₁, t₁) a >>= _ = _
            rw [hbody]
            rfl

end Splits
