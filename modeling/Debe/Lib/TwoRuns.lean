import Debe.Lib.Loops

/-!
# Two runs that agree

Two programs that can fail agree up to a relation when both return and the relation holds
of what they return, or both fail in the same way.  Programs that do the same steps on
related states agree: the rules below follow the steps, a bind or a loop at a time, and
need no hypothesis about success.
-/

namespace TwoRuns

variable {ε α β : Type*} {γ δ : Type*}

/-- Both return related values, or both fail with the same fault. -/
def Agree (R : α → β → Prop) : Except ε α → Except ε β → Prop
  | .ok a, .ok b => R a b
  | .error e, .error e' => e = e'
  | _, _ => False

/-- Programs that are the same agree. -/
theorem agree_of_eq {R : α → α → Prop} {x y : Except ε α} (h : x = y) (hR : ∀ a, R a a) :
    Agree R x y := by
  subst h
  cases x with
  | error e => rfl
  | ok a => exact hR a

section Steps

universe v

variable {α β γ δ : Type v} {R : α → β → Prop} {T : γ → δ → Prop} {x : Except ε α}
  {y : Except ε β} {f : α → Except ε γ} {g : β → Except ε δ}

/-- **Steps that agree**, one after the other. -/
theorem Agree.bind (h : Agree R x y) (hfg : ∀ a b, R a b → Agree T (f a) (g b)) :
    Agree T (x >>= f) (y >>= g) := by
  cases x with
  | error e =>
      cases y with
      | error e' => exact h
      | ok b => exact h.elim
  | ok a =>
      cases y with
      | error e' => exact h.elim
      | ok b => exact hfg a b h

/-- **Loops whose bodies agree** on related states. -/
theorem agree_foldlM {ι : Type*} {l : List ι} {f : α → ι → Except ε α} {g : β → ι → Except ε β}
    {a : α} {b : β} (hab : R a b)
    (hstep : ∀ a b, ∀ i ∈ l, R a b → Agree R (f a i) (g b i)) :
    Agree R (l.foldlM f a) (l.foldlM g b) := by
  induction l generalizing a b with
  | nil => exact hab
  | cons i l ih =>
      rw [List.foldlM_cons, List.foldlM_cons]
      have hhead := hstep a b i List.mem_cons_self hab
      refine hhead.bind fun a' b' hab' => ih hab' fun a b j hj => ?_
      exact hstep a b j (List.mem_cons_of_mem _ hj)

end Steps

end TwoRuns
