import Mathlib.Logic.Function.Basic
import Mathlib.Order.Lattice

/-!
# Keeping the largest of a stream of observations

Keys are observed again and again, each time with a value, and some of the keys are
held.  A holder with a bounded number of places does its work when every key it holds
has its last observed value, and a key it does not hold stands behind all that it holds
and is missing only because the places are taken.

The rules say which steps preserve this: a key that is held is observed again with a
value that is not smaller, a key takes a free place, a key takes the place of a least
one, or a key that is smaller than all is passed over.
-/

namespace TopK

variable {α ν : Type*} [LinearOrder ν] {full full' : Prop}
variable {held seen : α → Option ν} {k t : α} {v m : ν}

/-- No held value is smaller than `m`. -/
def Floor (held : α → Option ν) (m : ν) : Prop := ∀ j w, held j = some w → m ≤ w

/-- What is held of what was seen.  `full` says that the places are taken. -/
structure Best (full : Prop) (held seen : α → Option ν) : Prop where
  last : ∀ j w, held j = some w → seen j = some w
  rest : ∀ j w, seen j = some w → held j = none → full ∧ Floor held w

theorem best_nothing : Best full (fun _ : α => (none : Option ν)) (fun _ => none) :=
  ⟨nofun, nofun⟩

theorem Floor.trans {m' : ν} (h : Floor held m) (hle : m' ≤ m) : Floor held m' :=
  fun j w hj => hle.trans (h j w hj)

variable [DecidableEq α]

theorem Floor.update (h : Floor held m) (hle : m ≤ v) :
    Floor (Function.update held k (some v)) m := by
  intro j w hj
  by_cases hjk : j = k
  · subst hjk
    rw [Function.update_self] at hj
    exact Option.some.inj hj ▸ hle
  · rw [Function.update_of_ne hjk] at hj
    exact h j w hj

theorem Floor.remove (h : Floor held m) : Floor (Function.update held t none) m := by
  intro j w hj
  by_cases hjt : j = t
  · subst hjt
    rw [Function.update_self] at hj
    cases hj
  · rw [Function.update_of_ne hjt] at hj
    exact h j w hj

/-- **Setting a key on both sides** leaves the other keys to be looked at. -/
theorem best_update (hlast : ∀ j, j ≠ k → ∀ w, held j = some w → seen j = some w)
    (hrest : ∀ j, j ≠ k → ∀ w, seen j = some w → held j = none →
      full ∧ Floor (Function.update held k (some v)) w) :
    Best full (Function.update held k (some v)) (Function.update seen k (some v)) where
  last := by
    intro j w hj
    by_cases hjk : j = k
    · subst hjk
      rwa [Function.update_self] at hj ⊢
    · rw [Function.update_of_ne hjk] at hj ⊢
      exact hlast j hjk w hj
  rest := by
    intro j w hj hnone
    by_cases hjk : j = k
    · subst hjk
      rw [Function.update_self] at hnone
      cases hnone
    · rw [Function.update_of_ne hjk] at hj hnone
      exact hrest j hjk w hj hnone

/-- While there are free places, everything seen is held, and so it stays. -/
theorem Best.free (h : Best full held seen) (hfree : ¬ full) :
    Best full' (Function.update held k (some v)) (Function.update seen k (some v)) :=
  best_update (fun j _ => h.last j) fun j _ w hj hnone => absurd (h.rest j w hj hnone).1 hfree

/-- A held key with a value that is not smaller. -/
theorem Best.raise (h : Best full held seen) (hk : held k = some m) (hle : m ≤ v) :
    Best full (Function.update held k (some v)) (Function.update seen k (some v)) := by
  refine best_update (fun j _ => h.last j) fun j _ w hj hnone => ?_
  obtain ⟨hfull, hfloor⟩ := h.rest j w hj hnone
  exact ⟨hfull, hfloor.update ((hfloor k m hk).trans hle)⟩

/-- A key that takes the place of a least one. -/
theorem Best.replace (h : Best full held seen) (ht : held t = some m) (hleast : Floor held m)
    (hle : m ≤ v) (hfull : full) :
    Best full (Function.update (Function.update held t none) k (some v))
      (Function.update seen k (some v)) := by
  refine best_update (fun j _ w hj => ?_) fun j _ w hj hnone => ⟨hfull, ?_⟩
  · by_cases hjt : j = t
    · subst hjt
      rw [Function.update_self] at hj
      cases hj
    · rw [Function.update_of_ne hjt] at hj
      exact h.last j w hj
  · by_cases hjt : j = t
    · -- the key that gave up its place was a least one
      subst hjt
      have hw : w = m := Option.some.inj (hj.symm.trans (h.last j m ht))
      exact hw ▸ hleast.remove.update hle
    · rw [Function.update_of_ne hjt] at hnone
      obtain ⟨-, hfloor⟩ := h.rest j w hj hnone
      exact hfloor.remove.update ((hfloor t m ht).trans hle)

/-- A key that is passed over because it is smaller than all. -/
theorem Best.skip (h : Best full held seen) (hk : held k = none) (hfull : full)
    (hfloor : Floor held v) : Best full held (Function.update seen k (some v)) where
  last := by
    intro j w hj
    have hjk : j ≠ k := by
      rintro rfl
      rw [hk] at hj
      cases hj
    rw [Function.update_of_ne hjk]
    exact h.last j w hj
  rest := by
    intro j w hj hnone
    by_cases hjk : j = k
    · subst hjk
      rw [Function.update_self] at hj
      exact ⟨hfull, Option.some.inj hj ▸ hfloor⟩
    · rw [Function.update_of_ne hjk] at hj
      exact h.rest j w hj hnone

end TopK
