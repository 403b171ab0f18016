import Mathlib.Data.List.AList

/-!
# Maps in which the first binding wins

`insert` of a hash map keeps a binding that is already there.  A map filled from a table
of bindings therefore has, for each key, the first binding of the table, unless it had one
before.  A table that lists a map in any order gives that map back.
-/

namespace FirstBinding

variable {κ β : Type*} [DecidableEq κ] {m : AList fun _ : κ => β} {k j : κ} {v : β}

/-- Insert unless the key is there. -/
def insert (m : AList fun _ : κ => β) (k : κ) (v : β) : AList fun _ : κ => β :=
  if k ∈ m then m else m.insert k v

/-- Insert the bindings of a table one after the other. -/
def insertAll (m : AList fun _ : κ => β) (l : List (Sigma fun _ : κ => β)) :
    AList fun _ : κ => β :=
  l.foldl (fun m e => insert m e.1 e.2) m

theorem lookup_insert_self : (insert m k v).lookup k = some ((m.lookup k).getD v) := by
  unfold insert
  split
  · rename_i hmem
    obtain ⟨w, hw⟩ := Option.isSome_iff_exists.mp (AList.lookup_isSome.mpr hmem)
    rw [hw, Option.getD_some]
  · rename_i hmem
    rw [AList.lookup_insert, AList.lookup_eq_none.mpr hmem, Option.getD_none]

theorem lookup_insert_ne (h : j ≠ k) : (insert m k v).lookup j = m.lookup j := by
  unfold insert
  split
  · rfl
  · exact AList.lookup_insert_ne h

/-- **The first binding wins.** -/
theorem lookup_insertAll (m : AList fun _ : κ => β) (l : List (Sigma fun _ : κ => β)) (j : κ) :
    (insertAll m l).lookup j = (m.lookup j).or (l.dlookup j) := by
  induction l generalizing m with
  | nil => simp [insertAll]
  | cons e l ih =>
      obtain ⟨k, v⟩ := e
      change (insertAll (insert m k v) l).lookup j = _
      rw [ih]
      by_cases hjk : j = k
      · subst hjk
        rw [lookup_insert_self, List.dlookup_cons_eq]
        cases m.lookup j <;> rfl
      · rw [lookup_insert_ne hjk, List.dlookup_cons_ne _ _ hjk]

/-- What is bound afterwards was bound before, or by the table. -/
theorem lookup_insertAll_cases {l : List (Sigma fun _ : κ => β)}
    (h : (insertAll m l).lookup j = some v) : m.lookup j = some v ∨ l.dlookup j = some v := by
  rw [lookup_insertAll] at h
  exact (Option.or_eq_some_iff.mp h).imp_right And.right

/-- **A map listed in any order** is filled in again. -/
theorem lookup_insertAll_perm {l : List (Sigma fun _ : κ => β)} (h : l.Perm m.entries) (j : κ) :
    (insertAll ∅ l).lookup j = m.lookup j := by
  have hnodup : l.NodupKeys := (List.perm_nodupKeys h).mpr m.nodupKeys
  rw [lookup_insertAll, AList.lookup_empty, Option.none_or]
  exact List.perm_dlookup j hnodup h

end FirstBinding
