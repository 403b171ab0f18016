import Debe.Lz4Compress

/-!
# The matches the compressor finds

`LZ4_count` finds exactly the common prefix of two positions, although it
compares words of eight, four, two and one bytes.  It never counts too far, so
copying that many bytes from the earlier position reproduces the source; and it
never stops early, so the end of a match lies beyond every position the search
has put into the table.

What the search returns is a position at least twelve bytes before the end and
an earlier one at most 65535 back whose four bytes are equal.  Catching up moves
both back and loses none of the bytes already found equal.
-/

namespace Debe

open LittleEndian CommonPrefix

/-! ## Counting -/

/-- How many bytes from `pIn`, below `lim`, repeat those from `pMatch`. -/
def shared (src : Bytes) (pIn pMatch lim : Nat) : Nat :=
  common ((src.take lim).drop pIn) (src.drop pMatch)

theorem shared_le (src : Bytes) (pIn pMatch lim : Nat) : shared src pIn pMatch lim ≤ lim - pIn := by
  have hle := common_le_length ((src.take lim).drop pIn) (src.drop pMatch)
  rw [List.length_drop, List.length_take] at hle
  unfold shared
  omega

theorem take_window {src : Bytes} {p w lim : Nat} (h : p + w ≤ lim) :
    ((src.take lim).drop p).take w = (src.drop p).take w := by
  rw [List.drop_take, List.take_take, Nat.min_eq_left (by omega)]

/-- Two words below the limit are equal when that many bytes are shared. -/
theorem readWord_eq_iff {src : Bytes} {w pIn pMatch lim : Nat} (hmatch : pMatch ≤ pIn)
    (hw : pIn + w ≤ lim) (hlim : lim ≤ src.length) :
    readWord w src pMatch = readWord w src pIn ↔ w ≤ shared src pIn pMatch lim := by
  have hlen : ((src.drop pMatch).take w).length = ((src.drop pIn).take w).length := by
    simp only [List.length_take, List.length_drop]
    omega
  have hwin : w ≤ ((src.take lim).drop pIn).length := by
    simp only [List.length_take, List.length_drop]
    omega
  unfold readWord shared
  rw [decode_inj hlen, ← take_window hw, eq_comm]
  exact take_eq_take_iff hwin

theorem shared_eq_add {src : Bytes} {pIn pMatch lim k : Nat}
    (h : k ≤ shared src pIn pMatch lim) :
    shared src pIn pMatch lim = k + shared src (pIn + k) (pMatch + k) lim := by
  unfold shared at *
  rw [common_eq_add_drop h, List.drop_drop, List.drop_drop]

/-- The bytes shared are the same at both places. -/
theorem getElem?_of_lt_shared {src : Bytes} {pIn pMatch lim i : Nat}
    (h : i < shared src pIn pMatch lim) : src[pIn + i]? = src[pMatch + i]? := by
  have hlim := shared_le src pIn pMatch lim
  have hsame : ((src.take lim).drop pIn).take (shared src pIn pMatch lim) =
      (src.drop pMatch).take (shared src pIn pMatch lim) := take_common _ _
  have hbyte := congrArg (fun bytes => bytes[i]?) hsame
  rwa [List.getElem?_take_of_lt h, List.getElem?_take_of_lt h, List.getElem?_drop,
    List.getElem?_drop, List.getElem?_take_of_lt (by omega)] at hbyte

/-- One comparison steps over bytes that are shared, and after it fewer than `w` are
left of fewer than `2 * w`. -/
theorem countWord_spec {src : Bytes} {lim w pIn pMatch : Nat} (hw : 0 < w)
    (hmatch : pMatch ≤ pIn) (hlim : lim ≤ src.length)
    (hfew : shared src pIn pMatch lim < 2 * w) :
    ∃ k, countWord src lim w (pIn, pMatch) = (pIn + k, pMatch + k) ∧
      shared src pIn pMatch lim = k + shared src (pIn + k) (pMatch + k) lim ∧
      shared src (pIn + k) (pMatch + k) lim < w := by
  have hle := shared_le src pIn pMatch lim
  unfold countWord
  dsimp only
  split
  · rename_i h
    have hshared := (readWord_eq_iff hmatch (by omega) hlim).mp h.2
    have hrest := shared_eq_add hshared
    exact ⟨w, rfl, hrest, by omega⟩
  · rename_i h
    refine ⟨0, rfl, by simp, ?_⟩
    by_contra hmany
    have hshared : w ≤ shared src pIn pMatch lim := Nat.le_of_not_lt hmany
    exact h ⟨by omega, (readWord_eq_iff hmatch (by omega) hlim).mpr hshared⟩

/-- Fewer than eight bytes are compared exactly by a word of four, of two and of one. -/
theorem countTail_eq {src : Bytes} {lim pIn pMatch : Nat} (hmatch : pMatch ≤ pIn)
    (hlim : lim ≤ src.length) (hfew : shared src pIn pMatch lim < 8) :
    countTail src lim pIn pMatch = pIn + shared src pIn pMatch lim := by
  obtain ⟨four, hfour, hsum4, hfew4⟩ := @countWord_spec src lim 4 pIn pMatch
    (by omega) hmatch hlim hfew
  obtain ⟨two, htwo, hsum2, hfew2⟩ := @countWord_spec src lim 2 (pIn + four) (pMatch + four)
    (by omega) (by omega) hlim hfew4
  obtain ⟨one, hone, hsum1, hfew1⟩ := @countWord_spec src lim 1 (pIn + four + two)
    (pMatch + four + two) (by omega) (by omega) hlim hfew2
  unfold countTail
  rw [hfour, htwo, hone]
  dsimp only
  omega

theorem countLoop_eq {src : Bytes} {lim pIn pMatch : Nat} (hmatch : pMatch ≤ pIn)
    (hlim : lim ≤ src.length) :
    countLoop src lim pIn pMatch = pIn + shared src pIn pMatch lim := by
  fun_induction countLoop src lim pIn pMatch with
  | case1 pIn pMatch hroom diff hsame ih =>
      have hread := (readWord_eq_iff hmatch (by omega) hlim).mp (Nat.xor_eq_zero_iff.mp hsame)
      have hrest := shared_eq_add hread
      rw [ih (by omega)]
      omega
  | case2 pIn pMatch hroom diff hdiff =>
      have hfew : shared src pIn pMatch lim < 8 := by
        by_contra hmany
        apply hdiff
        rw [Nat.xor_eq_zero_iff, readWord_eq_iff hmatch (by omega) hlim]
        omega
      have hlenIn : ((src.drop pIn).take 8).length = 8 := by
        simp only [List.length_take, List.length_drop]
        omega
      have hlenMatch : ((src.drop pMatch).take 8).length = 8 := by
        simp only [List.length_take, List.length_drop]
        omega
      have hne : (src.drop pIn).take 8 ≠ (src.drop pMatch).take 8 := by
        intro h
        apply hdiff
        rw [Nat.xor_eq_zero_iff, readWord, readWord, h]
      have hctz := ctz_xor_div_eight (hlenIn.trans hlenMatch.symm) hne
      have hprefix : common ((src.drop pIn).take 8) ((src.drop pMatch).take 8) =
          shared src pIn pMatch lim := by
        rw [← take_window (by omega : pIn + 8 ≤ lim)]
        exact common_take hfew
      rw [hlenIn, hprefix, Nat.xor_comm] at hctz
      exact congrArg (pIn + ·) hctz
  | case3 pIn pMatch hend =>
      have hle := shared_le src pIn pMatch lim
      exact countTail_eq hmatch hlim (by omega)

/-- **`LZ4_count` counts exactly the bytes shared below the limit.** -/
theorem lz4Count_eq {src : Bytes} {lim pIn pMatch : Nat} (hmatch : pMatch ≤ pIn)
    (hlim : lim ≤ src.length) :
    lz4Count src pIn pMatch lim = shared src pIn pMatch lim := by
  unfold lz4Count
  rw [countLoop_eq hmatch hlim]
  omega

/-- Copying shared bytes extends a prefix of the source. -/
theorem copyMatch_take {src : Bytes} {lim ip m n : Nat} (hm : m < ip)
    (hlim : lim ≤ src.length) (hn : n ≤ shared src ip m lim) :
    copyMatch n (ip - m) (src.take ip) = src.take (ip + n) := by
  induction n generalizing ip m with
  | zero => rfl
  | succ n ih =>
      have hle := shared_le src ip m lim
      have hrest := @shared_eq_add src ip m lim 1 (by omega)
      have hsame := @getElem?_of_lt_shared src ip m lim 0 (by omega)
      have hlen : (src.take ip).length = ip := by
        rw [List.length_take]
        omega
      have hbyte : (src.take ip).getD (ip - (ip - m)) 0 = src.getD ip 0 := by
        rw [List.getD_eq_getElem?_getD, List.getD_eq_getElem?_getD,
          List.getElem?_take_of_lt (by omega), Nat.sub_sub_self hm.le]
        exact congrArg (Option.getD · 0) hsame.symm
      have hlt : ip < src.length := by omega
      have hext : src.take ip ++ [src.getD ip 0] = src.take (ip + 1) := by
        rw [List.take_add_one, List.getD_eq_getElem?_getD, List.getElem?_eq_getElem hlt]
        rfl
      have hoff : ip - m = ip + 1 - (m + 1) := by omega
      rw [copyMatch, hlen, hbyte, hext, hoff, ih (by omega) (by omega)]
      congr 1
      omega

/-! ## Finding a match -/

/-- Catching up moves both cursors back by the same number of equal bytes. -/
theorem catchUp_spec {src : Bytes} {anchor ip m lim : Nat} (hanchor : anchor ≤ ip)
    (hm : m < ip) (hip : ip ≤ lim) (hlim : lim ≤ src.length) :
    ∃ k, ip = (catchUp src anchor ip m).1 + k ∧ m = (catchUp src anchor ip m).2 + k ∧
      anchor ≤ (catchUp src anchor ip m).1 ∧
      shared src (catchUp src anchor ip m).1 (catchUp src anchor ip m).2 lim =
        k + shared src ip m lim := by
  induction ip generalizing m with
  | zero => omega
  | succ ip ih =>
      cases m with
      | zero => exact ⟨0, by simp [catchUp], by simp [catchUp], by simpa [catchUp] using hanchor,
          by simp [catchUp]⟩
      | succ m =>
          rw [catchUp]
          split
          · rename_i hback
            obtain ⟨k, hk, hmk, hle, hshared⟩ := ih (by omega) (by omega : m < ip) (by omega)
            have hone : 1 ≤ shared src ip m lim := by
              refine le_common ?_ ?_
              · rw [take_window (by omega), List.take_one, List.take_one, List.head?_drop,
                  List.head?_drop, hback.2]
              · rw [List.length_drop, List.length_take]
                omega
            have hstep := shared_eq_add hone
            exact ⟨k + 1, by omega, by omega, hle, by omega⟩
          · exact ⟨0, rfl, rfl, hanchor, by simp⟩

/-- Every entry of the table lies below `bound`. -/
def Below (bound : Nat) (table : HashTable) : Prop :=
  ∀ h, table h < bound

theorem Below.mono {b b' : Nat} {table : HashTable} (h : Below b table) (hb : b ≤ b') :
    Below b' table := by
  intro i
  exact Nat.lt_of_lt_of_le (h i) hb

theorem Below.putIndexOnHash {bound idx : Nat} {table : HashTable} (h : Below bound table)
    (hidx : idx < bound) (i : Nat) (tableType : TableType) :
    Below bound (Debe.putIndexOnHash idx i table tableType) := by
  intro j
  have hcut : ∀ w, idx % 2 ^ w < bound := by
    intro w
    exact Nat.lt_of_le_of_lt (Nat.mod_le _ _) hidx
  cases tableType with
  | byU16 =>
      simp only [Debe.putIndexOnHash, Function.update_apply]
      split
      · exact hcut 16
      · exact h j
  | byU32 =>
      simp only [Debe.putIndexOnHash, Function.update_apply]
      split
      · exact hcut 32
      · exact h j

/-- An index of the table is at most 65535 back once the distance test is passed. -/
theorem near_of_tooFar {src : Bytes} {tableType : TableType} {m ip : Nat}
    (hsize : tableType = .byU16 → src.length < 65536 + 11) (hip : ip + 12 ≤ src.length)
    (h : tooFar m ip tableType = false) : ip - m ≤ 65535 := by
  cases tableType with
  | byU16 =>
      have := hsize rfl
      omega
  | byU32 =>
      have hnear : ¬ m + 65535 < ip := by simpa [tooFar] using h
      omega

theorem findMatch_spec {src : Bytes} {tableType : TableType} {table table' : HashTable}
    {s : Search} {ip m : Nat} (hlen : 12 ≤ src.length) (htable : Below s.forwardIp table)
    (h : findMatch src tableType table s = some (ip, m, table')) :
    ip + 12 ≤ src.length ∧ m < ip ∧ tooFar m ip tableType = false ∧
      readWord 4 src m = readWord 4 src ip ∧ Below (ip + 1) table' := by
  fun_induction findMatch src tableType table s with
  | case1 => cases h
  | case2 table s hash current matchIndex hnext table₁ hhit =>
      simp only [Option.some.injEq, Prod.mk.injEq] at h
      obtain ⟨rfl, rfl, rfl⟩ := h
      have hstep : s.next.forwardIp = s.forwardIp + s.step := rfl
      have hpos := s.step_pos
      have hroom : s.forwardIp + 12 ≤ src.length := by
        unfold mflimitPlusOne at hnext
        omega
      exact ⟨hroom, htable _, hhit.1, hhit.2,
        (htable.mono (Nat.le_succ _)).putIndexOnHash (Nat.lt_succ_self _) _ _⟩
  | case3 table s hash current matchIndex hnext table₁ hmiss ih =>
      have hstep : s.forwardIp + 1 ≤ s.next.forwardIp := Nat.add_le_add_left s.step_pos _
      exact ih ((htable.mono (by omega)).putIndexOnHash (by omega) _ _) h

end Debe
