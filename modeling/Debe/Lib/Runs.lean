import Mathlib.Logic.Relation

/-!
# Runs of several parties

A system of several parties is a step function that is partial: an action that
is not enabled in a state gives `none`.  A schedule is a list of actions, and a
state is reached when some schedule leads to it.  The rules below are those that
safety properties are proved with: an invariant of every step is an invariant of
every run, and a schedule can be evaluated to show that a state is reached.
-/

namespace Runs

variable {σ α : Type*} {step : σ → α → Option σ} {s t u : σ}

/-- Some enabled action leads from `s` to `t`. -/
def Next (step : σ → α → Option σ) (s t : σ) : Prop := ∃ a, step s a = some t

/-- Some schedule leads from `s` to `t`. -/
abbrev Reaches (step : σ → α → Option σ) : σ → σ → Prop := Relation.ReflTransGen (Next step)

/-- The state after a schedule, if every action of it was enabled. -/
def run (step : σ → α → Option σ) : σ → List α → Option σ
  | s, [] => some s
  | s, a :: rest => (step s a).bind fun s' => run step s' rest

/-- The same system with the actions that do not meet `cond` taken out. -/
def restrict (cond : σ → α → Bool) (step : σ → α → Option σ) (s : σ) (a : α) : Option σ :=
  if cond s a then step s a else none

theorem reaches_of_step {a : α} (h : step s a = some t) : Reaches step s t :=
  .single ⟨a, h⟩

/-- Evaluating a schedule shows that its last state is reached. -/
theorem reaches_of_run {actions : List α} (h : run step s actions = some t) :
    Reaches step s t := by
  induction actions generalizing s with
  | nil =>
      cases h
      exact .refl
  | cons a rest ih =>
      obtain ⟨s', hs', hrest⟩ := Option.bind_eq_some_iff.mp h
      exact .head ⟨a, hs'⟩ (ih hrest)

/-- **Invariant rule.**  What every enabled action preserves, every run preserves. -/
theorem Reaches.invariant {P : σ → Prop} (hstep : ∀ s a t, P s → step s a = some t → P t)
    (hrun : Reaches step s t) (hs : P s) : P t := by
  induction hrun with
  | refl => exact hs
  | tail _ hnext ih =>
      obtain ⟨a, ha⟩ := hnext
      exact hstep _ a _ ih ha

/-- What is enabled after a restriction was enabled before it, and met the
condition. -/
theorem restrict_eq_some {cond : σ → α → Bool} {a : α} :
    restrict cond step s a = some t ↔ cond s a = true ∧ step s a = some t := by
  cases hcond : cond s a <;> simp [restrict, hcond]

end Runs
