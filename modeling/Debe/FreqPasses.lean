import Debe.FreqIndex

/-!
# What each pass of a batch guarantees

The specifications are stated for an arbitrary relation `good` between
fingerprints and addresses, "this address may be used for this fingerprint".
With one client it will be the contents of an ideal index; with several it will
be membership in the history of saved chunks.  Each pass turns good addresses
in its inputs into good addresses in its outputs, and takes none of the exits.

`Flagged` describes the entries after the lookup section, `Resolved` those the
store loop has passed, and `Answered` the queries that came back from outside.
-/

namespace Debe

/-- The heap is well formed, within its bound, and holds good addresses only. -/
structure HeapGood (p : Params) (good : Bytes → RecipeEntry → Prop) (heap : EntryHeap) :
    Prop where
  inv : heap.Inv
  size : heap.size ≤ p.topThreshold
  good : ∀ fp f a, heap.entry fp = some (f, a) → good fp a

theorem HeapGood.mono {p : Params} {good good' : Bytes → RecipeEntry → Prop} {heap : EntryHeap}
    (h : HeapGood p good heap) (hsub : ∀ fp a, good fp a → good' fp a) :
    HeapGood p good' heap where
  inv := h.inv
  size := h.size
  good := fun fp f a he => hsub fp a (h.good fp f a he)

theorem heapGood_empty (p : Params) (good : Bytes → RecipeEntry → Prop) :
    HeapGood p good .empty where
  inv := EntryHeap.inv_empty
  size := by simp [EntryHeap.size, EntryHeap.empty]
  good := by simp [EntryHeap.entry, EntryHeap.empty]

/-- An entry that stands for its fingerprint in the batch: the first with it. -/
def InQueryEntry.IsFirst (e : InQueryEntry) : Prop :=
  e.dedupFlag = some .unique ∨ e.dedupFlag = some .duplicate

/-- Position `i` of the classified entries: a first entry has a new fingerprint,
and if it was found in the heap its address is good; any other entry refers back
to a first entry with the same fingerprint. -/
def FlaggedAt (good : Bytes → RecipeEntry → Prop) (es : List InQueryEntry) (i : Nat)
    (e : InQueryEntry) : Prop :=
  (e.IsFirst ∧ e.chunkHash ∉ (es.map InQueryEntry.chunkHash).take i ∧
    (e.dedupFlag = some .duplicate → good e.chunkHash e.chunkAddr)) ∨
  ((e.dedupFlag = some .tmpUnique ∨ e.dedupFlag = some .tmpDuplicate) ∧
    ∃ e', e.chunkAddr.offset.toNat < i ∧ es[e.chunkAddr.offset.toNat]? = some e' ∧
      e'.chunkHash = e.chunkHash ∧ e'.IsFirst)

/-- Every entry is classified. -/
def Flagged (good : Bytes → RecipeEntry → Prop) (es : List InQueryEntry) : Prop :=
  ∀ i e, es[i]? = some e → FlaggedAt good es i e

/-- The query that a classified entry gives rise to. -/
def outQueryOf (p : Params) (e : InQueryEntry) : Option OutQueryEntry :=
  if e.dedupFlag = some .unique then
    some { dedupFlag := none
           chunkHash := p.crypto.indexAESCMCEnc p.indexQueryKey e.chunkHash
           chunkAddr := [] }
  else none

/-- The queries of a batch, in order. -/
def outQueries (p : Params) (es : List InQueryEntry) : List OutQueryEntry :=
  es.filterMap (outQueryOf p)

/-! ## The lookup section -/

/-- An entry without its frequency, which classification does not look at. -/
def InQueryEntry.core (e : InQueryEntry) : InQueryEntry := { e with chunkFreq := 0 }

theorem InQueryEntry.core_fields {e e' : InQueryEntry} (h : e.core = e'.core) :
    e.dedupFlag = e'.dedupFlag ∧ e.chunkHash = e'.chunkHash ∧ e.chunkAddr = e'.chunkAddr := by
  unfold InQueryEntry.core at h
  rw [InQueryEntry.mk.injEq] at h
  exact ⟨h.1, h.2.1, h.2.2.1⟩

/-- What stands at a position of one list of entries stands in the other, up to what the
projection leaves out. -/
theorem exists_same_entry {β : Type} {g : InQueryEntry → β} {es es' : List InQueryEntry}
    (hmap : es'.map g = es.map g) {i : Nat} {e : InQueryEntry} (he : es'[i]? = some e) :
    ∃ e₀, es[i]? = some e₀ ∧ g e₀ = g e := by
  have hi := congrArg (·[i]?) hmap
  simp only [List.getElem?_map, he, Option.map_some] at hi
  exact Option.map_eq_some_iff.mp hi.symm

/-- Entries that differ in frequencies only are classified alike. -/
theorem Flagged.congr {good : Bytes → RecipeEntry → Prop} {es es' : List InQueryEntry}
    (hcore : es'.map InQueryEntry.core = es.map InQueryEntry.core) (h : Flagged good es) :
    Flagged good es' := by
  have hhash : es'.map InQueryEntry.chunkHash = es.map InQueryEntry.chunkHash := by
    have := congrArg (List.map InQueryEntry.chunkHash) hcore
    simp only [List.map_map] at this
    exact this
  intro i e he
  obtain ⟨e₀, he₀, hc⟩ := exists_same_entry hcore he
  obtain ⟨hf, hh, ha⟩ := InQueryEntry.core_fields hc
  rcases h i e₀ he₀ with ⟨hfirst, hnew, hgood⟩ | ⟨hflag, e₁, hlt, he₁, hsame, hfirst⟩
  · left
    refine ⟨?_, ?_, ?_⟩
    · unfold InQueryEntry.IsFirst at *
      rwa [← hf]
    · rwa [hhash, ← hh]
    · rwa [← hf, ← hh, ← ha]
  · right
    rw [ha] at hlt he₁
    obtain ⟨e₂, he₂, hc₂⟩ := exists_same_entry hcore.symm he₁
    obtain ⟨hf₂, hh₂, _⟩ := InQueryEntry.core_fields hc₂
    refine ⟨by rwa [← hf], e₂, hlt, he₂, by rw [hh₂, hsame, hh], ?_⟩
    unfold InQueryEntry.IsFirst at *
    rwa [hf₂]

/-- One more classified entry at the end. -/
theorem Flagged.append {good : Bytes → RecipeEntry → Prop} {es : List InQueryEntry}
    {e : InQueryEntry} (h : Flagged good es) (he : FlaggedAt good es es.length e) :
    Flagged good (es ++ [e]) := by
  -- a position inside `es` sees the same entries before it as without `e`
  have hold : ∀ i e', i ≤ es.length → FlaggedAt good es i e' →
      FlaggedAt good (es ++ [e]) i e' := by
    intro i e' hi hat
    rcases hat with ⟨hfirst, hnew, hgood⟩ | ⟨hflag, e₁, hlt, he₁, hsame, hfirst⟩
    · left
      refine ⟨hfirst, ?_, hgood⟩
      rwa [List.map_append, List.take_append_of_le_length (by simpa using hi)]
    · right
      refine ⟨hflag, e₁, hlt, ?_, hsame, hfirst⟩
      rwa [List.getElem?_append_left (by omega)]
  intro i e' hget
  rcases Nat.lt_or_ge i es.length with hi | hi
  · rw [List.getElem?_append_left hi] at hget
    exact hold i e' hi.le (h i e' hget)
  · have hlen := (List.getElem?_eq_some_iff.mp hget).1
    have hieq : i = es.length := by
      simp at hlen
      omega
    subst hieq
    rw [List.getElem?_append_right le_rfl] at hget
    have hee : e = e' := by simpa using hget
    subst hee
    exact hold _ _ le_rfl he

/-- A first entry has a fingerprint that does not occur before it. -/
theorem Flagged.fresh {good : Bytes → RecipeEntry → Prop} {es : List InQueryEntry}
    (h : Flagged good es) {i : Nat} {e : InQueryEntry} (he : es[i]? = some e)
    (hfirst : e.IsFirst) : e.chunkHash ∉ (es.map InQueryEntry.chunkHash).take i := by
  rcases h i e he with ⟨-, hnew, -⟩ | ⟨hflag, -⟩
  · exact hnew
  · rcases hfirst with hf | hf <;> rcases hflag with hg | hg <;> simp [hf] at hg

/-- First entries with one fingerprint stand at one position. -/
theorem Flagged.first_pos {good : Bytes → RecipeEntry → Prop} {es : List InQueryEntry}
    (h : Flagged good es) {i j : Nat} {e e' : InQueryEntry} (he : es[i]? = some e)
    (he' : es[j]? = some e') (hfirst : e.IsFirst) (hfirst' : e'.IsFirst)
    (hhash : e.chunkHash = e'.chunkHash) : i = j := by
  have hbefore : ∀ {i j : Nat} {e e' : InQueryEntry}, es[i]? = some e → es[j]? = some e' →
      e'.IsFirst → e.chunkHash = e'.chunkHash → ¬ i < j := by
    intro i j e e' he he' hfirst' hhash hlt
    apply h.fresh he' hfirst'
    rw [← hhash]
    apply List.mem_of_getElem? (i := i)
    rw [List.getElem?_take_of_lt hlt, List.getElem?_map, he]
    rfl
  have hle := hbefore he he' hfirst' hhash
  have hge := hbefore he' he hfirst hhash.symm
  omega

theorem outQueries_congr {p : Params} {es es' : List InQueryEntry}
    (hcore : es'.map InQueryEntry.core = es.map InQueryEntry.core) :
    outQueries p es' = outQueries p es := by
  have hof : ∀ es : List InQueryEntry,
      outQueries p es = (es.map InQueryEntry.core).filterMap (outQueryOf p) := by
    intro es
    rw [List.filterMap_map]
    rfl
  rw [hof, hof, hcore]

/-- The invariant of the lookup loop after the entries `pre`. -/
structure LookupInv (p : Params) (good : Bytes → RecipeEntry → Prop) (pre : List InQueryEntry)
    (s : LookupState) : Prop where
  hashes : s.done.map InQueryEntry.chunkHash = pre.map InQueryEntry.chunkHash
  sizes : s.done.map InQueryEntry.chunkSize = pre.map InQueryEntry.chunkSize
  flagged : Flagged good s.done
  query : s.outQuery = outQueries p s.done
  first : ∀ fp i, s.localIndex.lookup fp = some i →
    ∃ e, s.done[i]? = some e ∧ e.chunkHash = fp ∧ e.IsFirst
  covered : ∀ e ∈ s.done, e.chunkHash ∈ s.localIndex

/-- A hash that `_localIndex` does not know is new in the batch. -/
theorem LookupInv.fresh {p : Params} {good : Bytes → RecipeEntry → Prop}
    {pre : List InQueryEntry} {s : LookupState} (h : LookupInv p good pre s) {fp : Bytes}
    (hfp : s.localIndex.lookup fp = none) :
    fp ∉ (s.done.map InQueryEntry.chunkHash).take s.done.length := by
  intro hmem
  obtain ⟨e, he, rfl⟩ := List.mem_map.mp (List.mem_of_mem_take hmem)
  have hin := h.covered e he
  rw [← AList.lookup_isSome, hfp] at hin
  simp at hin

/-- Classify a hash that is new in the batch. -/
theorem LookupInv.append {p : Params} {good : Bytes → RecipeEntry → Prop}
    {pre : List InQueryEntry} {s : LookupState} (h : LookupInv p good pre s)
    {e d : InQueryEntry} (hfp : s.localIndex.lookup e.chunkHash = none)
    (hhash : d.chunkHash = e.chunkHash) (hsize : d.chunkSize = e.chunkSize)
    (hfirst : d.IsFirst) (hgood : d.dedupFlag = some .duplicate → good d.chunkHash d.chunkAddr)
    {query : List OutQueryEntry} (hquery : query = outQueries p (s.done ++ [d])) :
    LookupInv p good (pre ++ [e])
      { done := s.done ++ [d]
        outQuery := query
        localIndex := s.localIndex.insert e.chunkHash s.done.length } where
  hashes := by simp [h.hashes, hhash]
  sizes := by simp [h.sizes, hsize]
  flagged := h.flagged.append (Or.inl ⟨hfirst, hhash ▸ h.fresh hfp, hgood⟩)
  query := hquery
  first := by
    intro fp i hi
    by_cases hk : fp = e.chunkHash
    · subst hk
      rw [AList.lookup_insert] at hi
      cases hi
      exact ⟨d, by simp, hhash, hfirst⟩
    · rw [AList.lookup_insert_ne hk] at hi
      obtain ⟨e₁, he₁, hrest⟩ := h.first fp i hi
      exact ⟨e₁, by
        rw [List.getElem?_append_left (List.getElem?_eq_some_iff.mp he₁).1]
        exact he₁, hrest⟩
  covered := by
    intro e₁ he₁
    rw [AList.mem_insert]
    rcases List.mem_append.mp he₁ with hold | hnew
    · exact Or.inr (h.covered e₁ hold)
    · rw [List.mem_singleton.mp hnew]
      exact Or.inl hhash

/-- Ask outside about a hash that is new in the batch. -/
theorem LookupInv.queryOutside {p : Params} {good : Bytes → RecipeEntry → Prop}
    {pre : List InQueryEntry} {s : LookupState} (h : LookupInv p good pre s) {e : InQueryEntry}
    (hfp : s.localIndex.lookup e.chunkHash = none) :
    LookupInv p good (pre ++ [e]) (queryOutside p s e) := by
  let d : InQueryEntry := { e with
    dedupFlag := some .unique
    chunkAddr := { e.chunkAddr with offset := UInt32.ofNat s.outQuery.length } }
  apply h.append (d := d) hfp rfl rfl (Or.inl rfl)
  · intro hflag
    cases hflag
  · rw [h.query, outQueries, outQueries, List.filterMap_append]
    rfl

/-- Overwriting an entry by one with the same projection. -/
theorem map_set_of_eq {α β : Type*} {l : List α} {i : Nat} {x y : α} (g : α → β)
    (hi : l[i]? = some x) (hg : g y = g x) : (l.set i y).map g = l.map g := by
  obtain ⟨hlt, rfl⟩ := List.getElem?_eq_some_iff.mp hi
  have hlt' : i < (l.map g).length := (List.length_map g).symm ▸ hlt
  have hself : (l.map g)[i] = g l[i] := List.getElem_map g
  rw [List.map_set, hg, ← hself, List.set_getElem_self hlt']

/-- Refer back to an earlier entry with the same hash. -/
theorem LookupInv.backReference {p : Params} {good : Bytes → RecipeEntry → Prop}
    {pre : List InQueryEntry} {s : LookupState} (h : LookupInv p good pre s)
    {e found : InQueryEntry} {offset : Nat} (flag : DedupFlag)
    (hfound : s.done[offset]? = some found) (hhash : found.chunkHash = e.chunkHash)
    (hfirst : found.IsFirst) (hsmall : offset < 2 ^ 32)
    (hflag : flag = .tmpUnique ∨ flag = .tmpDuplicate) :
    LookupInv p good (pre ++ [e]) (backReference s e offset found flag) := by
  have hlt : offset < s.done.length := (List.getElem?_eq_some_iff.mp hfound).1
  have hword : (UInt32.ofNat offset).toNat = offset := UInt32.toNat_ofNat_of_lt' hsmall
  have hset : ∀ {β : Type} (g : InQueryEntry → β),
      g { found with chunkFreq := e.chunkFreq } = g found →
      (s.done.set offset { found with chunkFreq := e.chunkFreq }).map g = s.done.map g :=
    fun g hg => map_set_of_eq g hfound hg
  have hcore := hset InQueryEntry.core rfl
  have hlen : (s.done.set offset { found with chunkFreq := e.chunkFreq }).length =
      s.done.length := List.length_set
  refine ⟨?_, ?_, ?_, ?_, ?_, ?_⟩
  · simp only [Debe.backReference, List.map_append, List.map_cons, List.map_nil]
    rw [hset InQueryEntry.chunkHash rfl, h.hashes]
  · simp only [Debe.backReference, List.map_append, List.map_cons, List.map_nil]
    rw [hset InQueryEntry.chunkSize rfl, h.sizes]
  · apply (h.flagged.congr hcore).append
    right
    refine ⟨?_, { found with chunkFreq := e.chunkFreq }, ?_, ?_, hhash, hfirst⟩
    · rcases hflag with rfl | rfl <;> simp
    · simpa [hword, hlen] using hlt
    · simp [hword, hlt]
  · rw [Debe.backReference, outQueries, List.filterMap_append, ← outQueries, outQueries_congr hcore,
      h.query]
    rcases hflag with rfl | rfl <;> simp [outQueryOf]
  · intro fp i hi
    obtain ⟨e₁, he₁, hrest⟩ := h.first fp i hi
    have hi : i < s.done.length := (List.getElem?_eq_some_iff.mp he₁).1
    by_cases hio : offset = i
    · subst hio
      rw [hfound] at he₁
      cases he₁
      refine ⟨{ found with chunkFreq := e.chunkFreq }, ?_, hrest⟩
      rw [Debe.backReference, List.getElem?_append_left (by rw [hlen]; exact hi),
        List.getElem?_set_self hlt]
    · refine ⟨e₁, ?_, hrest⟩
      rw [Debe.backReference, List.getElem?_append_left (by rw [hlen]; exact hi),
        List.getElem?_set_ne hio]
      exact he₁
  · intro e₁ he₁
    rcases List.mem_append.mp he₁ with hold | hnew
    · have hmem : e₁.chunkHash ∈ s.done.map InQueryEntry.chunkHash := by
        rw [← hset InQueryEntry.chunkHash rfl]
        exact List.mem_map_of_mem hold
      obtain ⟨e₂, he₂, heq⟩ := List.mem_map.mp hmem
      exact heq ▸ h.covered e₂ he₂
    · rw [List.mem_singleton.mp hnew]
      exact hhash ▸ h.covered found (List.mem_of_getElem? hfound)

/-- The body of the lookup loop succeeds and keeps the invariant. -/
theorem lookupStep_spec {p : Params} {good : Bytes → RecipeEntry → Prop} {heap : EntryHeap}
    (hheap : HeapGood p good heap) {minFreq : Nat} {pre : List InQueryEntry} {s : LookupState}
    {e : InQueryEntry} (h : LookupInv p good pre s) (hsmall : pre.length < 2 ^ 32) :
    ∃ s', lookupStep p heap minFreq s e = .ok s' ∧ LookupInv p good (pre ++ [e]) s' := by
  unfold lookupStep
  cases hloc : s.localIndex.lookup e.chunkHash with
  | some offset =>
      obtain ⟨found, hfound, hhash, hfirst⟩ := h.first _ _ hloc
      have hlt : offset < s.done.length := (List.getElem?_eq_some_iff.mp hfound).1
      have hlen : s.done.length = pre.length := by
        simpa using congrArg List.length h.hashes
      have hback := fun flag => h.backReference flag hfound hhash hfirst (by omega)
      rcases hfirst with hf | hf
      · exact ⟨_, by simp only [hfound, hf], hback .tmpUnique (Or.inl rfl)⟩
      · exact ⟨_, by simp only [hfound, hf], hback .tmpDuplicate (Or.inr rfl)⟩
  | none =>
      dsimp only
      split
      · exact ⟨_, rfl, h.queryOutside hloc⟩
      · cases hget : heap.getPriority e.chunkHash with
        | none => exact ⟨_, rfl, h.queryOutside hloc⟩
        | some item =>
            have hentry : heap.entry e.chunkHash = some (item.chunkFreq, item.address) := by
              unfold EntryHeap.getPriority at hget
              simp [EntryHeap.entry, hget]
            refine ⟨_, rfl, h.append hloc ?_ ?_ ?_ ?_ ?_⟩
            · rfl
            · rfl
            · exact Or.inr rfl
            · intro _
              exact hheap.good _ _ _ hentry
            · rw [h.query, outQueries, outQueries, List.filterMap_append]
              simp [outQueryOf]

/-- `minFreq` is defined: a full heap has a first entry. -/
theorem minFreq_spec {p : Params} {good : Bytes → RecipeEntry → Prop} {heap : EntryHeap}
    (hheap : HeapGood p good heap) : ∃ f, minFreq p heap = .ok f := by
  have htwo := p.two_le_topThreshold
  unfold minFreq
  split
  · rename_i hfull
    have hpos : 0 < heap.heap.length := by
      unfold EntryHeap.size at hfull
      omega
    obtain ⟨f, hf, _⟩ := hheap.inv.topEntry hpos
    exact ⟨f, by simp [inRange, hf]⟩
  · exact ⟨0, rfl⟩

/-- The lookup section with a property that every round of the loop carries on. -/
theorem lookupSection_run {p : Params} {good : Bytes → RecipeEntry → Prop} {heap : EntryHeap}
    (hheap : HeapGood p good heap) {es : List InQueryEntry} (hsmall : es.length < 2 ^ 32)
    {Q : List InQueryEntry → LookupState → Prop}
    (hstart : Q [] { done := [], outQuery := [], localIndex := ∅ })
    (hround : ∀ freq pre e s s', LookupInv p good pre s → Q pre s →
      lookupStep p heap freq s e = .ok s' → Q (pre ++ [e]) s') :
    ∃ s, lookupSection p heap es = .ok s ∧ LookupInv p good es s ∧ Q es s := by
  obtain ⟨f, hf⟩ := minFreq_spec hheap
  have hempty : LookupInv p good [] { done := [], outQuery := [], localIndex := ∅ } := by
    refine ⟨rfl, rfl, ?_, rfl, ?_, ?_⟩
    · intro i e he
      simp at he
    · intro fp i hi
      simp at hi
    · simp
  obtain ⟨s, hrun, hs⟩ := Loops.foldlM_ok (f := lookupStep p heap f) (l := es)
    (P := fun pre s => LookupInv p good pre s ∧ Q pre s) ⟨hempty, hstart⟩ (by
    rintro pre e rest s hcut ⟨hpre, hq⟩
    have hlen : pre.length < 2 ^ 32 := by
      rw [hcut] at hsmall
      simp at hsmall
      omega
    obtain ⟨s', hrun, hs'⟩ := lookupStep_spec hheap hpre hlen
    exact ⟨s', hrun, hs', hround f pre e s s' hpre hq hrun⟩)
  exact ⟨s, by simp [lookupSection, hf, hrun, bind, Except.bind], hs⟩

/-- **The lookup section** takes no exit, classifies every entry, and asks
outside for exactly the entries flagged unique, in order. -/
theorem lookupSection_spec {p : Params} {good : Bytes → RecipeEntry → Prop} {heap : EntryHeap}
    (hheap : HeapGood p good heap) {es : List InQueryEntry} (hsmall : es.length < 2 ^ 32) :
    ∃ s, lookupSection p heap es = .ok s ∧ LookupInv p good es s := by
  obtain ⟨s, hrun, hs, -⟩ := lookupSection_run hheap hsmall (Q := fun _ _ => True) trivial
    fun _ _ _ _ _ _ _ _ => trivial
  exact ⟨s, hrun, hs⟩

/-! ## The store loop -/

/-- A query that came back: either a good address, or the statement that the
fingerprint is missing outside. -/
def AnsweredOne (p : Params) (good : Bytes → RecipeEntry → Prop) (missing : Bytes → Prop)
    (fp : Bytes) (q : OutQueryEntry) : Prop :=
  q.chunkHash = p.crypto.indexAESCMCEnc p.indexQueryKey fp ∧
  ((q.dedupFlag = some .unique ∧ missing fp) ∨
    (q.dedupFlag = some .duplicate ∧ ∃ a : RecipeEntry,
      q.chunkAddr = p.crypto.aesCBCEnc p.indexQueryKey a.toBytes ∧ good fp a))

/-- The queries left are the answers for the entries left, in lockstep. -/
def Answered (p : Params) (good : Bytes → RecipeEntry → Prop) (missing : Bytes → Prop) :
    List InQueryEntry → List OutQueryEntry → Prop
  | [], qs => qs = []
  | e :: es, qs =>
      if e.dedupFlag = some .unique then
        ∃ q rest, qs = q :: rest ∧ AnsweredOne p good missing e.chunkHash q ∧
          Answered p good missing es rest
      else Answered p good missing es qs

/-- The encryptions of a fingerprint and of an address that is good for it. -/
def GoodPair (p : Params) (good : Bytes → RecipeEntry → Prop) (key value : Bytes) : Prop :=
  ∃ fp a, fp.length = chunkHashSize ∧ key = p.crypto.indexAESCMCEnc p.indexQueryKey fp ∧
    value = p.crypto.aesCBCEnc p.indexQueryKey (RecipeEntry.toBytes a) ∧ good fp a

theorem GoodPair.mono {p : Params} {good good' : Bytes → RecipeEntry → Prop} {key value : Bytes}
    (h : GoodPair p good key value) (hsub : ∀ fp a, good fp a → good' fp a) :
    GoodPair p good' key value := by
  obtain ⟨fp, a, hlen, hkey, hvalue, hgood⟩ := h
  exact ⟨fp, a, hlen, hkey, hvalue, hsub _ _ hgood⟩

/-- An entry the store loop has passed: its first entries now hold their address. -/
def ResolvedAt (good : Bytes → RecipeEntry → Prop) (e d : InQueryEntry) : Prop :=
  d.chunkHash = e.chunkHash ∧ d.dedupFlag = e.dedupFlag ∧
    (d.IsFirst → good d.chunkHash d.chunkAddr)

/-- The invariant of the store loop over the classified entries `es`. -/
structure StoreInv (p : Params) (good : Bytes → RecipeEntry → Prop) (missing : Bytes → Prop)
    (es : List InQueryEntry) (s : StoreState) : Prop where
  hashed : ∀ e ∈ es, e.chunkHash.length = chunkHashSize
  flagged : Flagged good es
  length : s.done.length ≤ es.length
  resolved : ∀ (i : Nat) d, s.done[i]? = some d → ∃ e, es[i]? = some e ∧ ResolvedAt good e d
  answered : Answered p good missing (es.drop s.done.length) s.outQuery
  sent : ∀ q ∈ s.outDone, q.dedupFlag = some .unique → GoodPair p good q.chunkHash q.chunkAddr

theorem FlaggedAt.mono {good good' : Bytes → RecipeEntry → Prop} {es : List InQueryEntry}
    {i : Nat} {e : InQueryEntry} (h : FlaggedAt good es i e)
    (hsub : ∀ fp a, good fp a → good' fp a) : FlaggedAt good' es i e := by
  rcases h with ⟨hfirst, hnew, hgood⟩ | hback
  · exact Or.inl ⟨hfirst, hnew, fun hf => hsub _ _ (hgood hf)⟩
  · exact Or.inr hback

theorem AnsweredOne.mono {p : Params} {good good' : Bytes → RecipeEntry → Prop}
    {missing : Bytes → Prop} {fp : Bytes} {q : OutQueryEntry}
    (h : AnsweredOne p good missing fp q) (hsub : ∀ fp a, good fp a → good' fp a) :
    AnsweredOne p good' missing fp q := by
  obtain ⟨hhash, hmiss | ⟨hdup, a, haddr, hgood⟩⟩ := h
  · exact ⟨hhash, Or.inl hmiss⟩
  · exact ⟨hhash, Or.inr ⟨hdup, a, haddr, hsub _ _ hgood⟩⟩

theorem Answered.mono {p : Params} {good good' : Bytes → RecipeEntry → Prop}
    {missing : Bytes → Prop} {es : List InQueryEntry} {qs : List OutQueryEntry}
    (h : Answered p good missing es qs) (hsub : ∀ fp a, good fp a → good' fp a) :
    Answered p good' missing es qs := by
  induction es generalizing qs with
  | nil => exact h
  | cons e es ih =>
      unfold Answered at h ⊢
      split at h
      · rename_i hu
        obtain ⟨q, rest, hqs, hone, hrest⟩ := h
        rw [if_pos hu]
        exact ⟨q, rest, hqs, hone.mono hsub, ih hrest⟩
      · rename_i hu
        rw [if_neg hu]
        exact ih h

/-- More addresses may become good while a client is in its store loop. -/
theorem StoreInv.mono {p : Params} {good good' : Bytes → RecipeEntry → Prop}
    {missing : Bytes → Prop} {es : List InQueryEntry} {s : StoreState}
    (h : StoreInv p good missing es s) (hsub : ∀ fp a, good fp a → good' fp a) :
    StoreInv p good' missing es s where
  hashed := h.hashed
  flagged := fun i e he => (h.flagged i e he).mono hsub
  length := h.length
  resolved := by
    intro i d hd
    obtain ⟨e, he, hhash, hflag, hgood⟩ := h.resolved i d hd
    exact ⟨e, he, hhash, hflag, fun hf => hsub _ _ (hgood hf)⟩
  answered := h.answered.mono hsub
  sent := fun q hq hu => (h.sent q hq hu).mono hsub

/-- One more resolved entry. -/
theorem StoreInv.append {p : Params} {good : Bytes → RecipeEntry → Prop}
    {missing : Bytes → Prop} {es : List InQueryEntry} {s s' : StoreState} {e d : InQueryEntry}
    (h : StoreInv p good missing es s) (he : es[s.done.length]? = some e)
    (hdone : s'.done = s.done ++ [d]) (hd : ResolvedAt good e d)
    (hans : Answered p good missing (es.drop (s.done.length + 1)) s'.outQuery)
    (hsent : ∀ q ∈ s'.outDone, q.dedupFlag = some .unique →
      GoodPair p good q.chunkHash q.chunkAddr) :
    StoreInv p good missing es s' where
  hashed := h.hashed
  flagged := h.flagged
  length := by
    have hlt := (List.getElem?_eq_some_iff.mp he).1
    rw [hdone]
    simp
    omega
  resolved := by
    intro i d' hd'
    rw [hdone] at hd'
    rcases Nat.lt_or_ge i s.done.length with hi | hi
    · rw [List.getElem?_append_left hi] at hd'
      exact h.resolved i d' hd'
    · have hlen := (List.getElem?_eq_some_iff.mp hd').1
      have hieq : i = s.done.length := by
        simp at hlen
        omega
      subst hieq
      rw [List.getElem?_append_right le_rfl] at hd'
      have hdd : d = d' := by simpa using hd'
      exact ⟨e, he, hdd ▸ hd⟩
  answered := by
    rw [hdone, List.length_append]
    exact hans
  sent := hsent

/-- The chunk was found: its entry gets a good address, nothing is stored, and
the out-enclave index has nothing new to learn. -/
structure Reused (p : Params) (good : Bytes → RecipeEntry → Prop) (missing : Bytes → Prop)
    (es : List InQueryEntry) (s : StoreState) (e : InQueryEntry) (s' : StoreState) : Prop where
  upload : ∃ a, good e.chunkHash a ∧
    s'.upload = recordChunk p e.chunkHash e.chunkSize a s.upload
  out : ∀ out, ocallUpdateOutIndex out s'.outDone = ocallUpdateOutIndex out s.outDone
  inv : StoreInv p good missing es s'

/-- The chunk was missing everywhere: it is stored, and the out-enclave index
will learn the address. -/
structure StoredNew (p : Params) (good : Bytes → RecipeEntry → Prop) (missing : Bytes → Prop)
    (es : List InQueryEntry) (s : StoreState) (e : InQueryEntry) (chunk : Bytes)
    (s' : StoreState) : Prop where
  absent : missing e.chunkHash
  fresh : e.chunkHash ∉ (es.map InQueryEntry.chunkHash).take s.done.length
  upload : s'.upload = recordChunk p e.chunkHash e.chunkSize (storeUnique p chunk s.upload).1
    (storeUnique p chunk s.upload).2
  out : ∀ out, ocallUpdateOutIndex out s'.outDone =
    (ocallUpdateOutIndex out s.outDone).insert
      (p.crypto.indexAESCMCEnc p.indexQueryKey e.chunkHash)
      (p.crypto.aesCBCEnc p.indexQueryKey (storeUnique p chunk s.upload).1.toBytes)
  inv : ∀ good' : Bytes → RecipeEntry → Prop, (∀ fp a, good fp a → good' fp a) →
    good' e.chunkHash (storeUnique p chunk s.upload).1 → StoreInv p good' missing es s'

section Step

variable {p : Params} {good : Bytes → RecipeEntry → Prop} {missing : Bytes → Prop}
  {es : List InQueryEntry} {s s₁ : StoreState} {e d : InQueryEntry} {q : OutQueryEntry}
  {rest : List OutQueryEntry} {a : RecipeEntry}

theorem length_finishChunk (hdone : s₁.done = s.done) :
    (finishChunk p s₁ d a).done.length = s.done.length + 1 := by
  rw [finishChunk, hdone, List.length_append, List.length_singleton]

/-- What is sent for one more answered query. -/
theorem StoreInv.sent_concat (h : StoreInv p good missing es s)
    (hq : q.dedupFlag = some .unique → GoodPair p good q.chunkHash q.chunkAddr) :
    ∀ q' ∈ s.outDone ++ [q], q'.dedupFlag = some .unique →
      GoodPair p good q'.chunkHash q'.chunkAddr := by
  intro q' hmem
  rcases List.mem_append.mp hmem with hold | hlast
  · exact h.sent q' hold
  · rw [List.mem_singleton.mp hlast]
    exact hq

/-- A chunk with a good address that is neither stored nor sent is reused. -/
theorem StoreInv.reuse (h : StoreInv p good missing es s) (he : es[s.done.length]? = some e)
    (hdone : s₁.done = s.done) (hupload : s₁.upload = s.upload) (hhash : d.chunkHash = e.chunkHash)
    (hsize : d.chunkSize = e.chunkSize) (ha : good e.chunkHash a) (hd : ResolvedAt good e d)
    (hans : Answered p good missing (es.drop (s.done.length + 1)) s₁.outQuery)
    (hout : ∀ out, ocallUpdateOutIndex out s₁.outDone = ocallUpdateOutIndex out s.outDone)
    (hsent : ∀ q ∈ s₁.outDone, q.dedupFlag = some .unique →
      GoodPair p good q.chunkHash q.chunkAddr) :
    Reused p good missing es s e (finishChunk p s₁ d a) where
  upload := ⟨a, ha, by rw [finishChunk, hhash, hsize, hupload]⟩
  out := hout
  inv := h.append he (by rw [finishChunk, hdone]) hd hans hsent

/-- A unique chunk that the out-enclave index has reuses its address. -/
theorem StoreInv.stepFound (h : StoreInv p good missing es s)
    (he : es[s.done.length]? = some e) (chunk : Bytes)
    (hflag : e.dedupFlag = some .unique) (hquery : s.outQuery = q :: rest)
    (hfound : q.dedupFlag = some .duplicate)
    (haddr : q.chunkAddr = p.crypto.aesCBCEnc p.indexQueryKey a.toBytes)
    (ha : good e.chunkHash a)
    (hrest : Answered p good missing (es.drop (s.done.length + 1)) rest) :
    ∃ s', storeStep p s (e, chunk) = .ok s' ∧ s'.done.length = s.done.length + 1 ∧
      Reused p good missing es s e s' := by
  have hplain : RecipeEntry.ofBytes (p.crypto.aesCBCDec p.indexQueryKey q.chunkAddr) = a := by
    rw [haddr, p.crypto.aesCBCDec_address]
  let s₁ : StoreState := { s with outDone := s.outDone ++ [q], outQuery := rest }
  refine ⟨finishChunk p s₁ { e with chunkAddr := a } a,
    by simp only [storeStep, hflag, hquery, hfound, hplain, s₁], length_finishChunk rfl,
    h.reuse he rfl rfl rfl rfl ha ⟨rfl, rfl, fun _ => ha⟩ hrest ?_ (h.sent_concat ?_)⟩
  · intro out
    simp [s₁, ocallUpdateOutIndex, List.foldl_append, hfound]
  · intro hunique
    rw [hfound] at hunique
    cases hunique

/-- A unique chunk that is missing outside is stored. -/
theorem StoreInv.stepMissing (h : StoreInv p good missing es s)
    (he : es[s.done.length]? = some e) (chunk : Bytes)
    (hflag : e.dedupFlag = some .unique) (hquery : s.outQuery = q :: rest)
    (hunique : q.dedupFlag = some .unique) (habsent : missing e.chunkHash)
    (hqhash : q.chunkHash = p.crypto.indexAESCMCEnc p.indexQueryKey e.chunkHash)
    (hnew : e.chunkHash ∉ (es.map InQueryEntry.chunkHash).take s.done.length)
    (hrest : Answered p good missing (es.drop (s.done.length + 1)) rest) :
    ∃ s', storeStep p s (e, chunk) = .ok s' ∧ s'.done.length = s.done.length + 1 ∧
      StoredNew p good missing es s e chunk s' := by
  let r := storeUnique p chunk s.upload
  let sent : OutQueryEntry :=
    { q with chunkAddr := p.crypto.aesCBCEnc p.indexQueryKey r.1.toBytes }
  let s₁ : StoreState := { s with outDone := s.outDone ++ [sent], outQuery := rest, upload := r.2 }
  refine ⟨finishChunk p s₁ { e with chunkAddr := r.1 } r.1,
    by simp only [storeStep, hflag, hquery, hunique, r, s₁, sent], length_finishChunk rfl,
    habsent, hnew, rfl, ?_, ?_⟩
  · intro out
    simp only [finishChunk, ocallUpdateOutIndex, List.foldl_append, List.foldl_cons,
      List.foldl_nil, hunique, hqhash, if_true, r, s₁, sent]
  · intro good' hsub hg
    refine (h.mono hsub).append he rfl ⟨rfl, rfl, fun _ => hg⟩ (hrest.mono hsub)
      ((h.mono hsub).sent_concat fun _ => ?_)
    exact ⟨e.chunkHash, r.1, h.hashed e (List.mem_of_getElem? he), hqhash, rfl, hg⟩

/-- A chunk whose address the lookup took from the heap. -/
theorem StoreInv.stepInside (h : StoreInv p good missing es s)
    (he : es[s.done.length]? = some e) (chunk : Bytes)
    (hflag : e.dedupFlag = some .duplicate) (ha : good e.chunkHash e.chunkAddr)
    (hans : Answered p good missing (es.drop (s.done.length + 1)) s.outQuery) :
    ∃ s', storeStep p s (e, chunk) = .ok s' ∧ s'.done.length = s.done.length + 1 ∧
      Reused p good missing es s e s' :=
  ⟨finishChunk p (countInside s e) e e.chunkAddr, by simp only [storeStep, hflag],
    length_finishChunk rfl,
    h.reuse he rfl rfl rfl rfl ha ⟨rfl, rfl, fun _ => ha⟩ hans (fun _ => rfl) h.sent⟩

/-- A chunk that refers back to an entry whose address is known by now. -/
theorem StoreInv.stepBack {e₁ : InQueryEntry} (h : StoreInv p good missing es s)
    (he : es[s.done.length]? = some e) (chunk : Bytes)
    (hflag : e.dedupFlag = some .tmpUnique ∨ e.dedupFlag = some .tmpDuplicate)
    (hback : e.chunkAddr.offset.toNat < s.done.length)
    (he₁ : es[e.chunkAddr.offset.toNat]? = some e₁) (hsame : e₁.chunkHash = e.chunkHash)
    (hfirst : e₁.IsFirst)
    (hans : Answered p good missing (es.drop (s.done.length + 1)) s.outQuery) :
    ∃ s', storeStep p s (e, chunk) = .ok s' ∧ s'.done.length = s.done.length + 1 ∧
      Reused p good missing es s e s' := by
  have hget : s.done[e.chunkAddr.offset.toNat]? = some s.done[e.chunkAddr.offset.toNat] :=
    List.getElem?_eq_getElem hback
  obtain ⟨e₂, he₂, hhash, hdf, hg⟩ := h.resolved _ _ hget
  rw [he₁] at he₂
  cases he₂
  have ha : good e.chunkHash s.done[e.chunkAddr.offset.toNat].chunkAddr := by
    rw [← hsame, ← hhash]
    apply hg
    unfold InQueryEntry.IsFirst at hfirst ⊢
    rwa [hdf]
  have hnot : ¬ e.IsFirst := by
    rintro (hf | hf) <;> rcases hflag with hf' | hf' <;> rw [hf] at hf' <;> cases hf'
  refine ⟨finishChunk p (countInside s e) e s.done[e.chunkAddr.offset.toNat].chunkAddr, ?_,
    length_finishChunk rfl, h.reuse he rfl rfl rfl rfl ha ⟨rfl, rfl, fun hf => absurd hf hnot⟩ hans
      (fun _ => rfl) h.sent⟩
  rcases hflag with hf | hf <;> simp only [storeStep, hf, hget]

/-- **One round of the store loop** takes no exit: it reuses a good address or
stores a chunk that was missing. -/
theorem StoreInv.step (h : StoreInv p good missing es s) (he : es[s.done.length]? = some e)
    (chunk : Bytes) :
    ∃ s', storeStep p s (e, chunk) = .ok s' ∧ s'.done.length = s.done.length + 1 ∧
      (Reused p good missing es s e s' ∨ StoredNew p good missing es s e chunk s') := by
  have hlt := (List.getElem?_eq_some_iff.mp he).1
  have hdrop : es.drop s.done.length = e :: es.drop (s.done.length + 1) := by
    rw [List.drop_eq_getElem_cons hlt, (List.getElem?_eq_some_iff.mp he).2]
  have hans := h.answered
  rw [hdrop, Answered] at hans
  rcases h.flagged _ _ he with ⟨hu | hd, hnew, hgood⟩ | ⟨hflag, e₁, hback, he₁, hsame, hfirst⟩
  · -- flagged unique: the next query decides
    rw [if_pos hu] at hans
    obtain ⟨q, rest, hqs, ⟨hqhash, ⟨hqu, hmiss⟩ | ⟨hqd, a, haddr, hga⟩⟩, hrest⟩ := hans
    · obtain ⟨s', hrun, hlen, hstored⟩ :=
        h.stepMissing he chunk hu hqs hqu hmiss hqhash hnew hrest
      exact ⟨s', hrun, hlen, .inr hstored⟩
    · obtain ⟨s', hrun, hlen, hreused⟩ := h.stepFound he chunk hu hqs hqd haddr hga hrest
      exact ⟨s', hrun, hlen, .inl hreused⟩
  · rw [if_neg (by simp [hd])] at hans
    obtain ⟨s', hrun, hlen, hreused⟩ := h.stepInside he chunk hd (hgood hd) hans
    exact ⟨s', hrun, hlen, .inl hreused⟩
  · rw [if_neg (by rcases hflag with hf | hf <;> simp [hf])] at hans
    obtain ⟨s', hrun, hlen, hreused⟩ :=
      h.stepBack he chunk hflag hback he₁ hsame hfirst hans
    exact ⟨s', hrun, hlen, .inl hreused⟩

end Step

/-- At the end of the loop every query has been consumed and every first entry
holds a good address. -/
theorem StoreInv.finish {p : Params} {good : Bytes → RecipeEntry → Prop}
    {missing : Bytes → Prop} {es : List InQueryEntry} {s : StoreState}
    (h : StoreInv p good missing es s) (hend : s.done.length = es.length) :
    s.outQuery = [] ∧ ∀ d ∈ s.done, d.IsFirst → good d.chunkHash d.chunkAddr := by
  constructor
  · have hans := h.answered
    rw [hend, List.drop_length] at hans
    exact hans
  · intro d hd
    obtain ⟨i, hi⟩ := List.mem_iff_getElem?.mp hd
    obtain ⟨e, _, _, _, hgood⟩ := h.resolved i d hi
    exact hgood

/-- An entry without its address, the only field that the store loop writes. -/
def InQueryEntry.unaddressed (e : InQueryEntry) : InQueryEntry :=
  { e with chunkAddr := RecipeEntry.ofBytes [] }

theorem InQueryEntry.unaddressed_fields {e e' : InQueryEntry}
    (h : e.unaddressed = e'.unaddressed) :
    e.dedupFlag = e'.dedupFlag ∧ e.chunkHash = e'.chunkHash ∧ e.chunkFreq = e'.chunkFreq := by
  unfold InQueryEntry.unaddressed at h
  rw [InQueryEntry.mk.injEq] at h
  exact ⟨h.1, h.2.1, h.2.2.2.1⟩

theorem storeStep_done {p : Params} {s s' : StoreState} {ec : InQueryEntry × Bytes}
    (h : storeStep p s ec = .ok s') :
    ∃ a, s'.done = s.done ++ [{ ec.1 with chunkAddr := a }] := by
  unfold storeStep at h
  dsimp only at h
  split at h
  · cases h
    exact ⟨_, rfl⟩
  · split at h
    · cases h
      exact ⟨_, rfl⟩
    · cases h
  · split at h
    · cases h
      exact ⟨_, rfl⟩
    · cases h
  · split at h
    · cases h
    · split at h
      · cases h
        exact ⟨_, rfl⟩
      · cases h
        exact ⟨_, rfl⟩
      · cases h
  · cases h

/-- The store loop leaves everything but the addresses as the lookup section left it. -/
theorem storeLoop_unaddressed {p : Params} {idx : FreqIndex} {query : List OutQueryEntry}
    {es : List InQueryEntry} {chunks : List Bytes} {u : Upload} {s : StoreState}
    (h : storeLoop p idx query es chunks u = .ok s) (hlen : es.length = chunks.length) :
    s.done.map InQueryEntry.unaddressed = es.map InQueryEntry.unaddressed := by
  have hloop : ∀ (l : List (InQueryEntry × Bytes)) (s s' : StoreState),
      l.foldlM (storeStep p) s = .ok s' →
      s'.done.map InQueryEntry.unaddressed =
        (s.done ++ l.map Prod.fst).map InQueryEntry.unaddressed := by
    intro l
    induction l with
    | nil =>
        intro s s' hrun
        cases hrun
        simp
    | cons ec l ih =>
        intro s s' hrun
        rw [List.foldlM_cons] at hrun
        obtain ⟨s₁, hstep, hrest⟩ := Loops.bind_eq_ok.mp hrun
        obtain ⟨a, hdone⟩ := storeStep_done hstep
        rw [ih s₁ s' hrest, hdone]
        simp [InQueryEntry.unaddressed]
  have hall := hloop _ _ _ h
  rwa [List.nil_append, List.map_fst_zip hlen.le] at hall

/-! ## The out-enclave index -/

/-- The out-enclave index holds good pairs only. -/
def OutGood (p : Params) (good : Bytes → RecipeEntry → Prop) (out : OutIndex) : Prop :=
  ∀ key value, out.lookup key = some value → GoodPair p good key value

theorem outGood_empty (p : Params) (good : Bytes → RecipeEntry → Prop) : OutGood p good ∅ := by
  intro key value h
  simp at h

theorem OutGood.mono {p : Params} {good good' : Bytes → RecipeEntry → Prop} {out : OutIndex}
    (h : OutGood p good out) (hsub : ∀ fp a, good fp a → good' fp a) : OutGood p good' out :=
  fun key value hl => (h key value hl).mono hsub

theorem OutGood.insert {p : Params} {good : Bytes → RecipeEntry → Prop} {out : OutIndex}
    (h : OutGood p good out) {key value : Bytes} (hkv : GoodPair p good key value) :
    OutGood p good (out.insert key value) := by
  intro k v hl
  by_cases hk : k = key
  · subst hk
    rw [AList.lookup_insert] at hl
    cases hl
    exact hkv
  · rw [AList.lookup_insert_ne hk] at hl
    exact h k v hl

/-- A value found under an encrypted fingerprint is an address good for it. -/
theorem OutGood.found {p : Params} {good : Bytes → RecipeEntry → Prop} {out : OutIndex}
    (h : OutGood p good out) {fp value : Bytes} (hlen : fp.length = chunkHashSize)
    (hl : out.lookup (p.crypto.indexAESCMCEnc p.indexQueryKey fp) = some value) :
    ∃ a : RecipeEntry, value = p.crypto.aesCBCEnc p.indexQueryKey a.toBytes ∧ good fp a := by
  obtain ⟨fp', a, hlen', hkey, hvalue, hgood⟩ := h _ _ hl
  have hfp : fp = fp' :=
    p.crypto.indexAESCMCEnc_inj (by rw [hlen]; rfl) (by rw [hlen']; rfl) hkey
  exact ⟨a, hvalue, hfp ▸ hgood⟩

/-- **`Ocall_QueryOutIndex`** answers every query of a batch. -/
theorem OutGood.answered {p : Params} {good : Bytes → RecipeEntry → Prop} {out : OutIndex}
    (h : OutGood p good out) {missing : Bytes → Prop}
    (hmissing : ∀ fp, fp.length = chunkHashSize →
      out.lookup (p.crypto.indexAESCMCEnc p.indexQueryKey fp) = none → missing fp)
    {es : List InQueryEntry} (hlen : ∀ e ∈ es, e.chunkHash.length = chunkHashSize) :
    Answered p good missing es (ocallQueryOutIndex out (outQueries p es)) := by
  induction es with
  | nil => rfl
  | cons e es ih =>
      have hrest := ih (fun e' he' => hlen e' (List.mem_cons_of_mem _ he'))
      unfold Answered
      split
      · rename_i hu
        have hcons : outQueries p (e :: es) =
            { dedupFlag := none
              chunkHash := p.crypto.indexAESCMCEnc p.indexQueryKey e.chunkHash
              chunkAddr := [] } :: outQueries p es := by
          simp [outQueries, outQueryOf, hu]
        rw [hcons]
        refine ⟨_, _, List.map_cons, ?_, hrest⟩
        cases hl : out.lookup (p.crypto.indexAESCMCEnc p.indexQueryKey e.chunkHash) with
        | none => exact ⟨rfl, Or.inl ⟨rfl, hmissing _ (hlen e List.mem_cons_self) hl⟩⟩
        | some value =>
            obtain ⟨a, hvalue, hgood⟩ := h.found (hlen e List.mem_cons_self) hl
            exact ⟨rfl, Or.inr ⟨rfl, a, hvalue, hgood⟩⟩
      · rename_i hu
        have hskip : outQueries p (e :: es) = outQueries p es := by
          simp [outQueries, outQueryOf, hu]
        rw [hskip]
        exact hrest

/-- **`Ocall_UpdateOutIndex`** adds good pairs. -/
theorem OutGood.update {p : Params} {good : Bytes → RecipeEntry → Prop} {out : OutIndex}
    (h : OutGood p good out) {qs : List OutQueryEntry}
    (hqs : ∀ q ∈ qs, q.dedupFlag = some .unique → GoodPair p good q.chunkHash q.chunkAddr) :
    OutGood p good (ocallUpdateOutIndex out qs) := by
  induction qs generalizing out with
  | nil => exact h
  | cons q qs ih =>
      have hrest : ∀ q' ∈ qs, q'.dedupFlag = some .unique →
          GoodPair p good q'.chunkHash q'.chunkAddr :=
        fun q' hq' => hqs q' (List.mem_cons_of_mem _ hq')
      unfold ocallUpdateOutIndex
      rw [List.foldl_cons]
      split
      · rename_i hu
        exact ih (h.insert (hqs q List.mem_cons_self hu)) hrest
      · exact ih h hrest

/-! ## The heap update section -/

/-- The heap stays good when a member gets another frequency. -/
theorem HeapGood.update {p : Params} {good : Bytes → RecipeEntry → Prop} {heap : EntryHeap}
    (h : HeapGood p good heap) {key : Bytes} {f : Nat} {a : RecipeEntry}
    (hentry : heap.entry key = some (f, a)) (freq : Nat) :
    ∃ heap', heap.update key freq = some heap' ∧ HeapGood p good heap' ∧
      ∀ k x, heap'.entry k = some x → (k = key ∧ x = (freq, a)) ∨ heap.entry k = some x := by
  obtain ⟨heap', hrun, hinv', hlen, hentry'⟩ := h.inv.update hentry freq
  refine ⟨heap', hrun, ⟨hinv', ?_, ?_⟩, fun _ _ => EntryHeap.entry_of_set hentry'⟩
  · have hsize := h.size
    unfold EntryHeap.size at hsize ⊢
    omega
  · intro k f' a' hk
    rcases EntryHeap.entry_of_set hentry' hk with ⟨rfl, heq⟩ | hold
    · cases heq
      exact h.good k f a hentry
    · exact h.good k f' a' hold

/-- After `makeRoom` there is room, and nothing was added. -/
theorem makeRoom_spec {p : Params} {good : Bytes → RecipeEntry → Prop} {heap : EntryHeap}
    (h : HeapGood p good heap) :
    ∃ heap', makeRoom p heap = .ok heap' ∧ heap'.Inv ∧ heap'.size + 1 ≤ p.topThreshold ∧
      ∀ k x, heap'.entry k = some x → heap.entry k = some x := by
  have hsize := h.size
  have htwo := p.two_le_topThreshold
  unfold makeRoom
  split
  · rename_i hfull
    unfold EntryHeap.size at *
    obtain ⟨heap', t, hrun, _, hinv', hlen, hentry⟩ := h.inv.pop (by omega)
    exact ⟨heap', by simp [inRange, hrun], hinv', by omega, EntryHeap.entries_of_removed hentry⟩
  · exact ⟨heap, rfl, h.inv, by omega, fun k x hk => hk⟩

/-- `AddChunkToHeap` of a new key with a good address. -/
theorem addChunkToHeap_spec {p : Params} {good : Bytes → RecipeEntry → Prop} {heap : EntryHeap}
    (h : HeapGood p good heap) {fp : Bytes} (hnew : fp ∉ heap.index) {a : RecipeEntry}
    (hgood : good fp a) (freq : Nat) :
    ∃ heap', addChunkToHeap p heap freq a fp = .ok heap' ∧ HeapGood p good heap' ∧
      ∀ k x, heap'.entry k = some x → (k = fp ∧ x = (freq, a)) ∨ heap.entry k = some x := by
  obtain ⟨heap₁, hpop, hinv₁, hroom, hsub⟩ := makeRoom_spec h
  have hnew₁ : fp ∉ heap₁.index := EntryHeap.not_mem_of_entries hsub hnew
  obtain ⟨heap₂, hadd, hinv₂, hlen₂, hentry₂⟩ :=
    hinv₁.add hnew₁ { address := a, chunkFreq := freq, idx := 0 }
  refine ⟨heap₂, ?_, ⟨hinv₂, ?_, ?_⟩, ?_⟩
  · simp [addChunkToHeap, hpop, inRange, hadd, bind, Except.bind]
  · unfold EntryHeap.size at *
    omega
  · intro k f a' hk
    rcases EntryHeap.entry_of_set hentry₂ hk with ⟨rfl, heq⟩ | hold
    · cases heq
      exact hgood
    · exact h.good k f a' (hsub k _ hold)
  · intro k x hk
    rcases EntryHeap.entry_of_set hentry₂ hk with hset | hold
    · exact .inl hset
    · exact .inr (hsub k x hold)

/-- `CheckIfAddToHeap` is defined: it looks at the top of a full heap only. -/
theorem checkIfAddToHeap_spec {p : Params} {good : Bytes → RecipeEntry → Prop}
    {heap : EntryHeap} (h : HeapGood p good heap) (freq : Nat) :
    ∃ b, checkIfAddToHeap p heap freq = .ok b := by
  have htwo := p.two_le_topThreshold
  unfold checkIfAddToHeap
  split
  · exact ⟨true, rfl⟩
  · rename_i hfull
    have hpos : 0 < heap.heap.length := by
      unfold EntryHeap.size at hfull
      omega
    obtain ⟨f, hf, _⟩ := h.inv.topEntry hpos
    exact ⟨decide (f ≤ freq), by simp [hf, inRange, bind, Except.bind, pure, Except.pure]⟩

/-- One entry of the heap update.  The frequencies are old ones and that of a first entry. -/
theorem updateHeapStep_spec {p : Params} {good : Bytes → RecipeEntry → Prop} {heap : EntryHeap}
    (h : HeapGood p good heap) {e : InQueryEntry}
    (hgood : e.IsFirst → good e.chunkHash e.chunkAddr) :
    ∃ heap', updateHeapStep p heap e = .ok heap' ∧ HeapGood p good heap' ∧
      ∀ k x, heap'.entry k = some x →
        (e.IsFirst ∧ k = e.chunkHash ∧ x.1 = e.chunkFreq) ∨ heap.entry k = some x := by
  have hkeep : ∀ k x, heap.entry k = some x →
      (e.IsFirst ∧ k = e.chunkHash ∧ x.1 = e.chunkFreq) ∨ heap.entry k = some x := fun _ _ => .inr
  unfold updateHeapStep
  split
  · rename_i hfirst
    obtain ⟨b, hb⟩ := checkIfAddToHeap_spec h e.chunkFreq
    cases b with
    | false => exact ⟨heap, by simp [hb, bind, Except.bind, pure, Except.pure], h, hkeep⟩
    | true =>
        by_cases hin : e.chunkHash ∈ heap.index
        · obtain ⟨⟨f, a⟩, hold⟩ :=
            Option.isSome_iff_exists.mp (EntryHeap.mem_index_iff.mp hin)
          obtain ⟨heap', hrun, hheap', hentries⟩ := h.update hold e.chunkFreq
          refine ⟨heap', ?_, hheap', fun k x hk => ?_⟩
          · simp [hb, EntryHeap.contains, hin, inRange, hrun, bind, Except.bind]
          · exact (hentries k x hk).imp_left fun hset => ⟨hfirst, hset.1, by rw [hset.2]⟩
        · obtain ⟨heap', hrun, hheap', hentries⟩ :=
            addChunkToHeap_spec h hin (hgood hfirst) e.chunkFreq
          refine ⟨heap', ?_, hheap', fun k x hk => ?_⟩
          · simp [hb, EntryHeap.contains, hin, hrun, bind, Except.bind]
          · exact (hentries k x hk).imp_left fun hset => ⟨hfirst, hset.1, by rw [hset.2]⟩
  · exact ⟨heap, rfl, h, hkeep⟩

/-- **The heap update section** takes no exit and keeps the heap well formed,
within its bound and good. -/
theorem updateHeapSection_spec {p : Params} {good : Bytes → RecipeEntry → Prop}
    {heap : EntryHeap} (h : HeapGood p good heap) {es : List InQueryEntry}
    (hgood : ∀ e ∈ es, e.IsFirst → good e.chunkHash e.chunkAddr) :
    ∃ heap', updateHeapSection p heap es = .ok heap' ∧ HeapGood p good heap' :=
  Loops.foldlM_ok (P := fun _ heap => HeapGood p good heap) h (by
    intro pre e rest heap hcut hheap
    obtain ⟨heap', hrun, hheap', -⟩ := updateHeapStep_spec hheap (hgood e (by simp [hcut]))
    exact ⟨heap', hrun, hheap'⟩)

end Debe
