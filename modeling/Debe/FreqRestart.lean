import Debe.IndexDesigns
import Debe.Sealing

/-!
# The frequency index over a restart

The destructor of `EcallFreqIndex` seals the sketch and the heap, and the constructor
of the next one loads them.  A loaded index has the same counters and, position by
position, the same heap; only the words that fit their fields survive, so the lemmas
ask for 32-bit counters, frequencies and positions.
-/

namespace Debe

open Sealed LittleEndian

/-! ## Words read back -/

/-- A heap entry read back. -/
theorem HeapItem.ofBytes_toBytes (item : HeapItem) (hfreq : item.chunkFreq < 2 ^ 32)
    (hidx : item.idx < 2 ^ 32) : HeapItem.ofBytes item.toBytes = item := by
  have haddress : item.toBytes.take recipeEntrySize = item.address.toBytes := by
    rw [HeapItem.toBytes, List.append_assoc,
      List.take_left' (RecipeEntry.length_toBytes item.address)]
  have htail : item.toBytes.drop recipeEntrySize =
      encode 4 item.chunkFreq ++ encode 4 item.idx := by
    rw [HeapItem.toBytes, List.append_assoc,
      List.drop_left' (RecipeEntry.length_toBytes item.address)]
  have hlast : item.toBytes.drop (recipeEntrySize + 4) = encode 4 item.idx := by
    rw [← List.drop_drop, htail, List.drop_left' (length_encode 4 _)]
  have hword : (encode 4 item.idx).take 4 = encode 4 item.idx :=
    List.take_of_length_le (length_encode 4 _).le
  rw [HeapItem.ofBytes, haddress, htail, hlast, List.take_left' (length_encode 4 _), hword,
    decode_encode_of_lt hfreq, decode_encode_of_lt hidx, RecipeEntry.ofBytes_toBytes]

theorem length_rowBytes (sketch : CMSketch) (i : Nat) :
    (rowBytes sketch i).length = 4 * sketch.width := length_counters _ _

/-- A row read back, with zeros where it has no counters. -/
theorem rowCounter_rowBytes {sketch : CMSketch} {i j : Nat}
    (hword : sketch.counterArray i j < 2 ^ 32) :
    rowCounter (rowBytes sketch i) j = if j < sketch.width then sketch.counterArray i j else 0 := by
  split
  · rename_i hj
    have hsize : ∀ x ∈ List.range sketch.width, (encode 4 (sketch.counterArray i x)).length = 4 :=
      fun _ _ => length_encode 4 _
    have hget : (List.range sketch.width)[j]? = some j := by simp [hj]
    rw [rowCounter, rowBytes, Nat.mul_comm, Blocks.block hsize hget, decode_encode_of_lt hword]
  · rename_i hj
    have hdrop : (rowBytes sketch i).drop (4 * j) = [] := by
      apply List.drop_of_length_le
      rw [length_rowBytes]
      omega
    rw [rowCounter, hdrop]
    rfl

/-- **The rows are loaded** as they were written. -/
theorem loadRows_eq {sketch : CMSketch} {s : Sealed} {st : InStream UInt8} {i depth : Nat}
    (hst : st.On (sketchImages sketch)) (hpos : st.pos = i * (4 * sketch.width))
    (hrows : i + depth = sketch.depth) (counters : Nat → Nat → Nat) :
    ∃ st' counters', loadRows sketch.width i depth counters (s.reading st) =
        .ok (counters', s.reading st') ∧
      ∀ a, counters' a = if i ≤ a ∧ a < i + depth then rowCounter (rowBytes sketch a)
        else counters a := by
  induction depth generalizing i st counters with
  | zero =>
      refine ⟨st, counters, rfl, fun a => ?_⟩
      rw [if_neg (by omega)]
  | succ depth ih =>
      have hrow := length_counters sketch.width (counters i)
      have hget : (List.range sketch.depth)[i]? = some i := by
        rw [List.getElem?_range (by omega)]
      have hdelivered : delivered (sketchImages sketch) st (4 * sketch.width) =
          rowBytes sketch i := by
        rw [delivered, hpos]
        exact Blocks.block (fun x _ => length_rowBytes sketch x) hget
      obtain ⟨st₁, hon, hpos₁, hread⟩ := readFileToBuffer_on (s := s) hst hrow.ge
      rw [hdelivered, length_rowBytes, hpos] at hpos₁
      rw [hdelivered, Buffer.overwrite_whole (by rw [hrow, length_rowBytes])] at hread
      obtain ⟨st₂, counters', hrest, hcounters⟩ := ih (i := i + 1) hon
        (by rw [hpos₁, Nat.succ_mul i]) (by omega)
        (Function.update counters i (rowCounter (rowBytes sketch i)))
      refine ⟨st₂, counters', ?_, fun a => ?_⟩
      · simp only [loadRows, hread, bind, Except.bind]
        exact hrest
      · rw [hcounters a]
        by_cases hai : a = i
        · subst hai
          rw [if_neg (by omega), if_pos (by omega), Function.update_self]
        · rw [Function.update_of_ne hai]
          exact if_congr (by omega) rfl rfl

/-! ## What the seal keeps -/

/-- Two heaps with the same vector and the same items. -/
structure EntryHeap.Same (h h' : EntryHeap) : Prop where
  heap : h'.heap = h.heap
  lookup : ∀ k, h'.index.lookup k = h.index.lookup k

namespace EntryHeap

variable {h h' : EntryHeap}

theorem Same.entry (hs : h.Same h') (k : Bytes) : h'.entry k = h.entry k := by
  rw [EntryHeap.entry, EntryHeap.entry, hs.lookup]

theorem Same.mem_iff (hs : h.Same h') (k : Bytes) : k ∈ h'.index ↔ k ∈ h.index := by
  rw [mem_index_iff, mem_index_iff, hs.entry]

theorem Same.topEntry (hs : h.Same h') : h'.topEntry = h.topEntry := by
  rw [EntryHeap.topEntry, EntryHeap.topEntry, freqAt_eq_entry, freqAt_eq_entry, hs.heap]
  simp only [hs.entry]

theorem Same.inv (hs : h.Same h') (hinv : h.Inv) : h'.Inv where
  linked :=
    { nodup := hs.heap ▸ hinv.linked.nodup
      mem_iff := fun k => by rw [hs.heap, hs.mem_iff, hinv.linked.mem_iff] }
  back := fun j k item hk hitem => by
    rw [hs.heap] at hk
    rw [hs.lookup] at hitem
    exact hinv.back j k item hk hitem
  ordered := by
    have hprio : h'.prio = h.prio := by
      funext i
      exact prio_congr hs.entry (by rw [hs.heap])
    rw [hs.heap, hprio]
    exact hinv.ordered

end EntryHeap

/-- The index is between two batches and in a shape that the sealed files hold: the sketch
has its dimensions and counts in 32 bits, the heap is in order, its keys are fingerprints
and its frequencies and positions fit 32 bits. -/
structure FreqIndex.Live (idx : FreqIndex) : Prop where
  width : idx.cmSketch.width = FreqIndex.init.cmSketch.width
  depth : idx.cmSketch.depth = FreqIndex.init.cmSketch.depth
  counters : ∀ i j, idx.cmSketch.counterArray i j < 2 ^ 32
  inv : idx.insideDedupIndex.Inv
  keys : ∀ k ∈ idx.insideDedupIndex.heap, k.length = chunkHashSize
  freqs : ∀ k x, idx.insideDedupIndex.entry k = some x → x.1 < 2 ^ 32

/-- The index that is loaded from what another one sealed. -/
structure FreqIndex.Reloaded (idx idx' : FreqIndex) : Prop where
  width : idx'.cmSketch.width = idx.cmSketch.width
  depth : idx'.cmSketch.depth = idx.cmSketch.depth
  counters : ∀ i j, i < idx.cmSketch.depth → j < idx.cmSketch.width →
    idx'.cmSketch.counterArray i j = idx.cmSketch.counterArray i j
  blank : ∀ i j, idx.cmSketch.depth ≤ i ∨ idx.cmSketch.width ≤ j →
    idx'.cmSketch.counterArray i j = 0
  heap : idx.insideDedupIndex.Same idx'.insideDedupIndex

theorem FreqIndex.live_init : FreqIndex.init.Live where
  width := rfl
  depth := rfl
  counters := fun _ _ => Nat.two_pow_pos 32
  inv := EntryHeap.inv_empty
  keys := nofun
  freqs := by simp [FreqIndex.init, EntryHeap.entry, EntryHeap.empty]

theorem FreqIndex.Live.sealable {idx : FreqIndex} (h : idx.Live)
    (hsize : idx.insideDedupIndex.size ≤ 2 ^ 32) : idx.insideDedupIndex.Sealable where
  keys := h.keys
  items := by
    intro k hk
    obtain ⟨i, hi⟩ := List.mem_iff_getElem?.mp hk
    exact h.inv.linked.lookup hi
  count := by
    unfold EntryHeap.size at hsize
    omega

/-- The items of the heap, all of whose words fit. -/
theorem FreqIndex.Live.item {idx : FreqIndex} (h : idx.Live)
    (hsize : idx.insideDedupIndex.size ≤ 2 ^ 32) {k : Bytes} {item : HeapItem}
    (hk : idx.insideDedupIndex.index.lookup k = some item) :
    HeapItem.ofBytes item.toBytes = item := by
  have hfreq : item.chunkFreq < 2 ^ 32 :=
    h.freqs k (item.chunkFreq, item.address) (by rw [EntryHeap.entry, hk]; rfl)
  have hmem : k ∈ idx.insideDedupIndex.heap := by
    rw [h.inv.linked.mem_iff, EntryHeap.mem_index_iff, EntryHeap.entry, hk]
    rfl
  obtain ⟨i, hi⟩ := List.mem_iff_getElem?.mp hmem
  have hlt := (List.getElem?_eq_some_iff.mp hi).1
  have hidx : item.idx = i := h.inv.back i k item hi hk
  unfold EntryHeap.size at hsize
  exact item.ofBytes_toBytes hfreq (by omega)

/-- The heap loaded from the items of a live index is the same heap. -/
theorem FreqIndex.Live.sameHeap {idx : FreqIndex} (h : idx.Live)
    (hsize : idx.insideDedupIndex.size ≤ 2 ^ 32) :
    idx.insideDedupIndex.Same
      { heap := [] ++ idx.insideDedupIndex.heap
        index := rebuild (idx.insideDedupIndex.heap.map (heapEntry idx.insideDedupIndex)) ∅ } where
  heap := List.nil_append _
  lookup := by
    intro k
    let l := idx.insideDedupIndex.heap.map (heapEntry idx.insideDedupIndex)
    have hkeys : l.keys = idx.insideDedupIndex.heap := by
      simp only [l, List.keys, List.map_map]
      exact List.map_id _
    have hnodup : l.NodupKeys := by
      rw [List.NodupKeys, hkeys]
      exact h.inv.linked.nodup
    change (rebuild l ∅).lookup k = _
    rw [lookup_rebuild hnodup]
    cases hk : idx.insideDedupIndex.index.lookup k with
    | none =>
        rw [List.dlookup_eq_none, hkeys, h.inv.linked.mem_iff]
        exact AList.lookup_eq_none.mp hk
    | some item =>
        have hmem : k ∈ idx.insideDedupIndex.heap := by
          rw [h.inv.linked.mem_iff, ← AList.lookup_isSome, hk]
          rfl
        have hentry : heapEntry idx.insideDedupIndex k = ⟨k, item⟩ := by
          rw [heapEntry, hk, Option.elim_some, h.item hsize hk]
        exact (List.mem_dlookup_iff hnodup).mpr (hentry ▸ List.mem_map_of_mem hmem)

/-- **A restart.**  What `LoadDedupIndex` makes of the files that `PersistDedupIndex` wrote
has the same counters and the same heap. -/
theorem FreqIndex.Live.reload {idx : FreqIndex} (h : idx.Live)
    (hsize : idx.insideDedupIndex.size ≤ 2 ^ 32) {s : Sealed} (hs : Closed s)
    (hsketch : s.files .sketch = some (sketchImages idx.cmSketch))
    (hheap : s.files .freqIndex = some (heapImages idx.insideDedupIndex)) (junk : Nat → UInt8) :
    ∃ idx', Loaded s (loadFreqIndex junk .init s) idx' ∧ idx.Reloaded idx' := by
  have hne : sketchImages idx.cmSketch ≠ [] := by
    intro hnil
    have hlen := congrArg List.length hnil
    rw [sketchImages, Blocks.length_flatMap (fun i _ => length_rowBytes idx.cmSketch i),
      List.length_range, h.width, h.depth] at hlen
    exact absurd hlen (by decide)
  obtain ⟨st, counters, hrows, hcounters⟩ := loadRows_eq (s := s) (i := 0)
    (InStream.on_opened (sketchImages idx.cmSketch))
    (by rw [InStream.opened_pos, Nat.zero_mul]) (Nat.zero_add _)
    FreqIndex.init.cmSketch.counterArray
  rw [h.width, h.depth] at hrows
  refine ⟨_, loadFreqIndex_of_rows hs hsketch hne (h.sealable hsize) hheap junk hrows,
    h.width.symm, h.depth.symm, ?_, ?_, h.sameHeap hsize⟩
  · intro i j hi hj
    dsimp only
    rw [hcounters i, if_pos ⟨Nat.zero_le i, by omega⟩, rowCounter_rowBytes (h.counters i j),
      if_pos hj]
  · intro i j hij
    dsimp only
    rw [hcounters i]
    split
    · rw [rowCounter_rowBytes (h.counters i j), if_neg (by omega)]
    · rfl

/-- The counters of a loaded sketch are words. -/
theorem FreqIndex.Reloaded.counters_lt {idx idx' : FreqIndex} (hre : idx.Reloaded idx')
    (h : idx.Live) (i j : Nat) : idx'.cmSketch.counterArray i j < 2 ^ 32 := by
  by_cases hij : i < idx.cmSketch.depth ∧ j < idx.cmSketch.width
  · rw [hre.counters i j hij.1 hij.2]
    exact h.counters i j
  · rw [hre.blank i j (by omega)]
    exact Nat.two_pow_pos 32

/-- What was loaded can be sealed again. -/
theorem FreqIndex.Reloaded.live {idx idx' : FreqIndex} (hre : idx.Reloaded idx') (h : idx.Live) :
    idx'.Live where
  width := hre.width.trans h.width
  depth := hre.depth.trans h.depth
  counters := hre.counters_lt h
  inv := hre.heap.inv h.inv
  keys := fun k hk => h.keys k (hre.heap.heap ▸ hk)
  freqs := fun k x hk => h.freqs k x (hre.heap.entry k ▸ hk)

end Debe
