import Mathlib.Data.List.Perm.Basic
import Mathlib.Data.List.Nodup
import Mathlib.Tactic.Common

/-!
# A cache that forgets what was not used for longest

The keys and their values stand in a list, the one used last in front.  `get` moves its key
to the front, and so does `insert`, which for a new key cuts the list to its largest size.
`contains` and `pruneValue`, the value at the back, move nothing.

The rules say what the list is afterwards: a permutation, one key more, or one key more and
the back gone.
-/

/-- The keys with their values, the most recently used first, and the two limits. -/
structure Lru (κ β : Type*) where
  keys : List (κ × β)
  maxSize : Nat
  elasticity : Nat

namespace Lru

variable {κ β : Type*} [DecidableEq κ]

/-! ## The operations -/

/-- The value of a key. -/
def find (c : Lru κ β) (k : κ) : Option β := c.keys.lookup k

def size (c : Lru κ β) : Nat := c.keys.length

def contains (c : Lru κ β) (k : κ) : Bool := (c.find k).isSome

/-- Move a key to the front, with a value. -/
def splice (c : Lru κ β) (k : κ) (v : β) : Lru κ β :=
  { c with keys := (k, v) :: c.keys.eraseP fun e => e.1 == k }

/-- The value of a key, which goes to the front. -/
def get (c : Lru κ β) (k : κ) : Option (β × Lru κ β) :=
  (c.find k).map fun v => (v, c.splice k v)

/-- Forget keys from the back, if there are too many.  Without a largest size none is. -/
def prune (c : Lru κ β) : Lru κ β :=
  if c.maxSize = 0 ∨ c.size < c.maxSize + c.elasticity then c
  else { c with keys := c.keys.take c.maxSize }

/-- Give a key a value. -/
def insert (c : Lru κ β) (k : κ) (v : β) : Lru κ β :=
  match c.find k with
  | some _ => c.splice k v
  | none => prune { c with keys := (k, v) :: c.keys }

/-- The value at the back. -/
def pruneValue (c : Lru κ β) : Option β :=
  c.keys.getLast?.bind fun e => c.find e.1

/-! ## Finding -/

variable {c : Lru κ β} {k : κ} {v : β}

theorem contains_iff : c.contains k = true ↔ k ∈ c.keys.map Prod.fst := by
  rw [contains, find]
  induction c.keys with
  | nil => simp
  | cons e l ih =>
      obtain ⟨k', v'⟩ := e
      rw [List.lookup_cons]
      by_cases h : k = k'
      · subst h
        simp
      · have hne : (k == k') = false := beq_eq_false_iff_ne.mpr h
        simp [hne, h, ih]

theorem find_eq_none (h : k ∉ c.keys.map Prod.fst) : c.find k = none := by
  have hnot : ¬ c.contains k = true := fun hc => h (contains_iff.mp hc)
  simpa [contains] using hnot

/-- The keys before and after the one that is found. -/
theorem keys_of_find (h : c.find k = some v) :
    ∃ l l', c.keys = l ++ (k, v) :: l' ∧ ∀ e ∈ l, e.1 ≠ k := by
  obtain ⟨l, l', hkeys, hl⟩ := List.lookup_eq_some_iff.mp h
  exact ⟨l, l', hkeys, fun e he hk => by simpa [hk] using hl e he⟩

theorem mem_of_find (h : c.find k = some v) : (k, v) ∈ c.keys := by
  obtain ⟨l, l', hkeys, -⟩ := keys_of_find h
  rw [hkeys]
  exact List.mem_append_right _ List.mem_cons_self

/-- Where no key stands twice, every pair is found. -/
theorem find_of_mem (hnodup : (c.keys.map Prod.fst).Nodup) (h : (k, v) ∈ c.keys) :
    c.find k = some v := by
  have hcontains : c.contains k = true := contains_iff.mpr (List.mem_map_of_mem h)
  obtain ⟨v', hv'⟩ := Option.isSome_iff_exists.mp hcontains
  have hpair : (k, v') = (k, v) := List.inj_on_of_nodup_map hnodup (mem_of_find hv') h rfl
  rw [hv', (Prod.mk.inj hpair).2]

/-- A key that moves with its value changes the order only. -/
theorem splice_perm (h : c.find k = some v) : (c.splice k v).keys.Perm c.keys := by
  obtain ⟨l, l', hkeys, hl⟩ := keys_of_find h
  have herase : c.keys.eraseP (fun e => e.1 == k) = l ++ l' := by
    rw [hkeys, List.eraseP_append_right _ fun e he => by simpa using hl e he,
      List.eraseP_cons_of_pos (by simp)]
  rw [splice]
  dsimp only
  rw [herase, hkeys]
  exact List.perm_middle.symm

/-! ## The rules -/

/-- **A key that is there** has a value, and reading it changes the order only. -/
theorem get_of_contains (h : c.contains k = true) :
    ∃ v keys', c.get k = some (v, { c with keys := keys' }) ∧ (k, v) ∈ c.keys ∧
      keys'.Perm c.keys := by
  obtain ⟨v, hv⟩ := Option.isSome_iff_exists.mp h
  exact ⟨v, (c.splice k v).keys, by rw [get, hv]; rfl, mem_of_find hv, splice_perm hv⟩

omit [DecidableEq κ] in
/-- Below the largest size nothing is forgotten. -/
theorem prune_of_le (hsize : c.size ≤ c.maxSize) : c.prune = c := by
  rw [prune]
  split
  · rfl
  · rw [List.take_of_length_le hsize]

/-- **A new key** of a cache that is not full goes to the front. -/
theorem insert_of_room (hnew : k ∉ c.keys.map Prod.fst) (hroom : c.size < c.maxSize) (v : β) :
    c.insert k v = { c with keys := (k, v) :: c.keys } := by
  rw [insert, find_eq_none hnew]
  exact prune_of_le hroom

/-- **A new key** of a full cache goes to the front, and the one at the back is forgotten. -/
theorem insert_of_full (hnew : k ∉ c.keys.map Prod.fst) (hpos : 0 < c.maxSize)
    (hfull : c.size = c.maxSize) (helasticity : c.elasticity = 0) (v : β) :
    c.insert k v = { c with keys := (k, v) :: c.keys.dropLast } := by
  have hmany : ¬ (c.maxSize = 0 ∨ c.keys.length + 1 < c.maxSize + c.elasticity) := by
    rw [size] at hfull
    omega
  have htake : ((k, v) :: c.keys).take c.maxSize = (k, v) :: c.keys.dropLast := by
    rw [List.dropLast_eq_take, ← hfull, size]
    obtain ⟨n, hn⟩ := Nat.exists_eq_succ_of_ne_zero (Nat.ne_of_gt (hfull ▸ hpos : 0 < c.size))
    rw [size] at hn
    rw [hn]
    rfl
  rw [insert, find_eq_none hnew]
  dsimp only
  rw [prune]
  exact (if_neg hmany).trans (by rw [htake])

/-- **The value at the back**, where no key stands twice. -/
theorem pruneValue_eq (hnodup : (c.keys.map Prod.fst).Nodup) {l : List (κ × β)}
    (hkeys : c.keys = l ++ [(k, v)]) : c.pruneValue = some v := by
  have hmem : (k, v) ∈ c.keys := by
    rw [hkeys]
    exact List.mem_append_right _ List.mem_cons_self
  rw [pruneValue, hkeys, List.getLast?_concat]
  exact find_of_mem hnodup hmem

end Lru
