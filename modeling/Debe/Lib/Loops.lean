import Mathlib.Tactic.Common
import Mathlib.Data.List.Induction

/-!
# Loops that can fail

A loop over a list whose body may stop the program is a monadic fold into
`Except`.  The rule below is the one loop rule this development uses for it: an
invariant that speaks about the part of the list already consumed, together
with a body that succeeds and re-establishes it, gives both the success of the
whole loop and the invariant at its end.
-/

namespace Loops

universe v

/-- A computation that returns has returned from each of its parts. -/
theorem bind_eq_ok {ε : Type*} {α β : Type v} {x : Except ε α} {f : α → Except ε β} {b : β} :
    (x >>= f) = .ok b ↔ ∃ a, x = .ok a ∧ f a = .ok b := by
  cases x with
  | error e => simp [bind, Except.bind]
  | ok a => simp [bind, Except.bind]

variable {α σ ε : Type*}

@[simp] theorem foldlM_cons_ok {f : σ → α → Except ε σ} {a : α} {l : List α} {s s' : σ}
    (h : f s a = .ok s') : (a :: l).foldlM f s = l.foldlM f s' := by
  rw [List.foldlM_cons, h]
  rfl

theorem foldlM_singleton_ok {f : σ → α → Except ε σ} {a : α} {s s' : σ} :
    [a].foldlM f s = .ok s' ↔ f s a = .ok s' := by
  rw [List.foldlM_cons, bind_eq_ok]
  constructor
  · rintro ⟨s₁, hrun, hret⟩
    cases hret
    exact hrun
  · intro hrun
    exact ⟨s', hrun, rfl⟩

/-- The loop from a point where `pre` has been consumed. -/
theorem foldlM_ok_from {f : σ → α → Except ε σ} {P : List α → σ → Prop} {pre l : List α}
    {s : σ} (hs : P pre s)
    (hstep : ∀ pre' a rest s, pre ++ l = pre' ++ a :: rest → P pre' s →
      ∃ s', f s a = .ok s' ∧ P (pre' ++ [a]) s') :
    ∃ s', l.foldlM f s = .ok s' ∧ P (pre ++ l) s' := by
  induction l generalizing pre s with
  | nil => exact ⟨s, rfl, by simpa using hs⟩
  | cons a l ih =>
      obtain ⟨s₁, hrun, hs₁⟩ := hstep pre a l s rfl hs
      have hsplit : pre ++ a :: l = (pre ++ [a]) ++ l := by simp
      obtain ⟨s₂, hrest, hs₂⟩ := ih hs₁ (by
        intro pre' b rest s hcut
        exact hstep pre' b rest s (hsplit.trans hcut))
      exact ⟨s₂, by rw [foldlM_cons_ok hrun, hrest], by rw [hsplit]; exact hs₂⟩

/-- **Loop rule.**  A body that succeeds and keeps the invariant makes a loop
that succeeds and ends in the invariant of the whole list. -/
theorem foldlM_ok {f : σ → α → Except ε σ} {P : List α → σ → Prop} {l : List α} {s : σ}
    (hs : P [] s)
    (hstep : ∀ pre a rest s, l = pre ++ a :: rest → P pre s →
      ∃ s', f s a = .ok s' ∧ P (pre ++ [a]) s') :
    ∃ s', l.foldlM f s = .ok s' ∧ P l s' := by
  simpa using foldlM_ok_from (l := l) hs (by simpa using hstep)

/-- Bodies that agree on the elements give the same loop. -/
theorem foldlM_congr {f g : σ → α → Except ε σ} {l : List α}
    (h : ∀ a ∈ l, ∀ s, f s a = g s a) (s : σ) : l.foldlM f s = l.foldlM g s := by
  induction l generalizing s with
  | nil => rfl
  | cons a l ih =>
      rw [List.forall_mem_cons] at h
      rw [List.foldlM_cons, List.foldlM_cons, h.1]
      exact bind_congr (ih h.2)

/-- **Counting loop.**  The invariant speaks about the number of rounds. -/
theorem foldlM_range {f : σ → Nat → Except ε σ} {P : Nat → σ → Prop} {n : Nat} {s : σ}
    (hs : P 0 s) (hstep : ∀ i s, i < n → P i s → ∃ s', f s i = .ok s' ∧ P (i + 1) s') :
    ∃ s', (List.range n).foldlM f s = .ok s' ∧ P n s' := by
  induction n with
  | zero => exact ⟨s, rfl, hs⟩
  | succ n ih =>
      obtain ⟨s₁, hrun, hs₁⟩ := ih fun i s hi => hstep i s (Nat.lt_succ_of_lt hi)
      obtain ⟨s₂, hlast, hs₂⟩ := hstep n s₁ (Nat.lt_succ_self n) hs₁
      refine ⟨s₂, ?_, hs₂⟩
      rw [List.range_succ, List.foldlM_append]
      exact bind_eq_ok.mpr ⟨s₁, hrun, by rw [foldlM_cons_ok hlast]; rfl⟩

/-- **Invariant rule.**  What every successful body keeps, a successful loop keeps. -/
theorem foldlM_keeps {f : σ → α → Except ε σ} {P : σ → Prop} {l : List α} {s s' : σ}
    (hs : P s) (hstep : ∀ s a s', P s → f s a = .ok s' → P s')
    (hrun : l.foldlM f s = .ok s') : P s' := by
  induction l generalizing s with
  | nil =>
      cases hrun
      exact hs
  | cons a l ih =>
      rw [List.foldlM_cons] at hrun
      obtain ⟨s₁, hbody, hrest⟩ := bind_eq_ok.mp hrun
      exact ih (hstep s a s₁ hs hbody) hrest

/-- The invariant may speak about the part of the list already consumed. -/
theorem foldlM_keeps_seen {f : σ → α → Except ε σ} {P : List α → σ → Prop} {l : List α}
    {s s' : σ} (hs : P [] s)
    (hstep : ∀ pre a rest s s', l = pre ++ a :: rest → P pre s → f s a = .ok s' →
      P (pre ++ [a]) s')
    (hrun : l.foldlM f s = .ok s') : P l s' := by
  induction l using List.reverseRecOn generalizing s' with
  | nil =>
      cases hrun
      exact hs
  | append_singleton l a ih =>
      rw [List.foldlM_append] at hrun
      obtain ⟨s₁, hinit, hlast⟩ := bind_eq_ok.mp hrun
      refine hstep l a [] s₁ s' rfl (ih ?_ hinit) (foldlM_singleton_ok.mp hlast)
      intro pre b rest s s' hcut
      exact hstep pre b (rest ++ [a]) s s' (by simp [hcut])

/-- **Simulation rule.**  A fallible body that follows an abstract one step by
step makes a loop that succeeds and follows the abstract loop. -/
theorem foldlM_simulates {τ : Type*} {f : σ → α → Except ε σ} {g : τ → α → τ}
    {R : σ → τ → Prop} {l : List α} {s : σ} {t : τ} (hst : R s t)
    (hstep : ∀ s t a, a ∈ l → R s t → ∃ s', f s a = .ok s' ∧ R s' (g t a)) :
    ∃ s', l.foldlM f s = .ok s' ∧ R s' (l.foldl g t) :=
  foldlM_ok (P := fun pre s => R s (pre.foldl g t)) hst (by
    intro pre a rest s hcut hs
    obtain ⟨s', hrun, hs'⟩ := hstep s _ a (by simp [hcut]) hs
    exact ⟨s', hrun, by simpa using hs'⟩)

end Loops
