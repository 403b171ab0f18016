import Debe.Lz4Match

/-!
# What the compressor writes, the decoder reads

A block is followed sequence by sequence.  A sequence decodes to a longer
prefix of the source, whatever follows it, as long as the decoder is far enough
from both of its ends; the distances the encoder keeps, `MFLIMIT` for the start
of a match and `LASTLITERALS` for its end, are what makes this hold.  The bytes
written so far outgrow the bytes they stand for by at most one in 255, which is
what `LZ4_compressBound` counts on.
-/

namespace Debe

open LittleEndian CommonPrefix

/-! ## Lengths -/

theorem runLengthBytes_eq (n : Nat) :
    runLengthBytes n = List.replicate (n / 255) 255 ++ [UInt8.ofNat (n % 255)] := by
  fun_induction runLengthBytes n with
  | case1 n hlong ih =>
      have hdiv : n / 255 = (n - 255) / 255 + 1 := by omega
      have hmod : (n - 255) % 255 = n % 255 := by omega
      rw [ih, hdiv, List.replicate_succ, hmod]
      rfl
  | case2 n hshort =>
      have hdiv : n / 255 = 0 := by omega
      have hmod : n % 255 = n := by omega
      rw [hdiv, hmod]
      rfl

/-- Both loops write a length the same way. -/
theorem matchLengthBytes_eq (n : Nat) : matchLengthBytes n = runLengthBytes n := by
  fun_induction matchLengthBytes n with
  | case1 n hlong ih =>
      have hdiv : n / 255 = (n - 4 * 255) / 255 + 4 := by omega
      have hmod : (n - 4 * 255) % 255 = n % 255 := by omega
      rw [ih, runLengthBytes_eq, runLengthBytes_eq, hdiv, hmod]
      rfl
  | case2 n hshort => rw [runLengthBytes_eq]

@[simp] theorem length_runLengthBytes (n : Nat) : (runLengthBytes n).length = n / 255 + 1 := by
  rw [runLengthBytes_eq, List.length_append, List.length_replicate, List.length_singleton]

/-- The decoder reads the length back.  A loop error only says that the length was
the last thing before the limit. -/
theorem readLengthLoop_runLengthBytes {lim : Nat} (n : Nat) {rest : Bytes}
    (hrest : lim ≤ rest.length) :
    readLengthLoop lim (runLengthBytes n ++ rest) =
      (if rest.length ≤ lim then .loopError else .ok, n, rest) := by
  fun_induction runLengthBytes n with
  | case1 n hlong ih =>
      have hmore : ¬ (runLengthBytes (n - 255) ++ rest).length ≤ lim := by
        rw [List.length_append, length_runLengthBytes]
        omega
      rw [List.cons_append, readLengthLoop, if_neg hmore, if_pos rfl, ih]
      have hsum : 255 + (n - 255) = n := by omega
      simp only [hsum]
  | case2 n hshort =>
      have hbyte : (UInt8.ofNat n).toNat = n := by
        rw [UInt8.toNat_ofNat']
        omega
      have hlen : (255 : UInt8).toNat = 255 := rfl
      have hne : UInt8.ofNat n ≠ 255 := by
        intro h
        have h255 := congrArg UInt8.toNat h
        rw [hbyte, hlen] at h255
        omega
      rw [List.singleton_append, readLengthLoop, if_neg hne, hbyte]
      split <;> rfl

/-- The bytes that follow the token for a length of `n`: none below fifteen. -/
def lengthExt (n : Nat) : Bytes :=
  if 15 ≤ n then runLengthBytes (n - 15) else []

/-- The half of the token that stands for a length of `n`. -/
def lengthNibble (n : Nat) : Nat := min 15 n

theorem length_lengthExt (n : Nat) : (lengthExt n).length = (n + 240) / 255 := by
  unfold lengthExt
  split
  · rw [length_runLengthBytes]
    omega
  · have hshort : (n + 240) / 255 = 0 := by omega
    rw [hshort, List.length_nil]

/-- A match length is read back exactly when enough input follows. -/
theorem readMatchLength {n : Nat} {rest : Bytes} (hrest : 4 < rest.length) :
    (if lengthNibble n = 15 then readVariableLength 4 false (lengthExt n ++ rest)
      else (.ok, 0, lengthExt n ++ rest)) = (.ok, n - lengthNibble n, rest) := by
  unfold lengthNibble lengthExt
  by_cases hlong : 15 ≤ n
  · rw [if_pos (by omega), if_pos hlong, readVariableLength, Bool.false_and, if_neg (by decide),
      readLengthLoop_runLengthBytes _ hrest.le, if_neg (Nat.not_le.mpr hrest),
      Nat.min_eq_left hlong]
  · rw [if_neg (by omega), if_neg hlong, Nat.min_eq_right (by omega), Nat.sub_self,
      List.nil_append]

/-- A literal length is read back when at least the literals follow. -/
theorem readLiteralLength {n : Nat} {rest : Bytes} (hrest : n ≤ rest.length) :
    ∃ e, e ≠ LengthError.initialError ∧
      (if lengthNibble n = 15 then readVariableLength 15 true (lengthExt n ++ rest)
        else (.ok, 0, lengthExt n ++ rest)) = (e, n - lengthNibble n, rest) := by
  unfold lengthNibble lengthExt
  by_cases hlong : 15 ≤ n
  · refine ⟨if rest.length ≤ 15 then .loopError else .ok, ?_, ?_⟩
    · split <;> decide
    · have hinitial : ¬ (runLengthBytes (n - 15) ++ rest).length ≤ 15 := by
        rw [List.length_append, length_runLengthBytes]
        omega
      rw [if_pos (by omega), if_pos hlong, readVariableLength, Bool.true_and,
        if_neg (by simpa using hinitial), readLengthLoop_runLengthBytes _ (by omega),
        Nat.min_eq_left hlong]
  · refine ⟨.ok, by decide, ?_⟩
    rw [if_neg (by omega), if_neg hlong, Nat.min_eq_right (by omega), Nat.sub_self,
      List.nil_append]

/-! ## Sequences -/

theorem literalBytes_eq (mlToken : Nat) (literals : Bytes) :
    literalBytes mlToken literals =
      UInt8.ofNat (lengthNibble literals.length * 16 + mlToken) ::
        (lengthExt literals.length ++ literals) := by
  unfold literalBytes lengthNibble lengthExt
  dsimp only
  split
  · rename_i hlong
    rw [Nat.min_eq_left hlong]
  · rename_i hshort
    rw [Nat.min_eq_right (by omega), List.nil_append]

theorem sequenceBytes_eq (literals : Bytes) (offset matchCode : Nat) :
    sequenceBytes literals offset matchCode =
      UInt8.ofNat (lengthNibble literals.length * 16 + lengthNibble matchCode) ::
        (lengthExt literals.length ++
          (literals ++ (encode 2 offset ++ lengthExt matchCode))) := by
  unfold sequenceBytes
  split
  · rename_i hlong
    have hnibble : lengthNibble matchCode = 15 := Nat.min_eq_left hlong
    have hext : lengthExt matchCode = runLengthBytes (matchCode - 15) := if_pos hlong
    rw [literalBytes_eq, matchLengthBytes_eq, hnibble, hext]
    simp only [List.cons_append, List.append_assoc]
  · rename_i hshort
    have hnibble : lengthNibble matchCode = matchCode := Nat.min_eq_right (by omega)
    have hext : lengthExt matchCode = [] := if_neg hshort
    rw [literalBytes_eq, hnibble, hext]
    simp only [List.cons_append, List.append_assoc, List.append_nil]

/-- The token gives its two halves back. -/
theorem toNat_token (m n : Nat) :
    (UInt8.ofNat (lengthNibble m * 16 + lengthNibble n)).toNat / 16 = lengthNibble m ∧
      (UInt8.ofNat (lengthNibble m * 16 + lengthNibble n)).toNat % 16 = lengthNibble n := by
  unfold lengthNibble
  rw [UInt8.toNat_ofNat']
  omega

theorem decodeMatch_sequence {cap offset matchCode : Nat} {rest op : Bytes}
    (hrest : 4 < rest.length) (hoffset : offset ≤ op.length)
    (hcap : op.length + (matchCode + 4) + 5 ≤ cap) :
    decodeMatch cap (lengthNibble matchCode) offset (lengthExt matchCode ++ rest) op =
      some (rest, copyMatch (matchCode + 4) offset op) := by
  have hlength : lengthNibble matchCode + (matchCode - lengthNibble matchCode) + 4 =
      matchCode + 4 := by
    unfold lengthNibble
    omega
  unfold decodeMatch
  dsimp only
  rw [readMatchLength hrest]
  dsimp only
  rw [hlength, if_neg (by simp), if_neg (by omega), if_neg (by omega)]

/-- One sequence far enough from both ends takes the decoder past its literals and its
match. -/
theorem decompressLoop_sequence {cap fuel offset matchCode : Nat} {pre literals rest : Bytes}
    (hrest : 6 ≤ rest.length) (hword : offset < 65536)
    (hoffset : offset ≤ pre.length + literals.length)
    (hstart : pre.length + literals.length + 12 ≤ cap)
    (hend : pre.length + literals.length + (matchCode + 4) + 5 ≤ cap) :
    decompressLoop cap (fuel + 1) (sequenceBytes literals offset matchCode ++ rest) pre =
      decompressLoop cap fuel rest (copyMatch (matchCode + 4) offset (pre ++ literals)) := by
  have hlen : (pre ++ literals).length = pre.length + literals.length := List.length_append
  have hmatch := @decodeMatch_sequence cap offset matchCode rest (pre ++ literals)
    (by omega) (by omega) (by omega)
  have hdecode : decode (encode 2 offset) = offset := decode_encode_of_lt (by omega)
  have htwo : (encode 2 offset).length = 2 := length_encode 2 offset
  have htail : ((encode 2 offset ++ lengthExt matchCode) ++ rest).take 2 = encode 2 offset := by
    rw [List.append_assoc, List.take_left' htwo]
  have hskip : ((encode 2 offset ++ lengthExt matchCode) ++ rest).drop 2 =
      lengthExt matchCode ++ rest := by
    rw [List.append_assoc, List.drop_left' htwo]
  obtain ⟨hhigh, hlow⟩ := toNat_token literals.length matchCode
  rw [sequenceBytes_eq, List.cons_append, List.append_assoc, List.append_assoc]
  simp only [decompressLoop, hhigh, hlow]
  split
  · rename_i hshort
    -- the shortcut: fewer than fifteen literals, so none of the length is outside the token
    have hfew : literals.length < 15 := by
      have := hshort.1
      unfold lengthNibble at this
      omega
    have hnibble : lengthNibble literals.length = literals.length := by
      unfold lengthNibble
      omega
    have hext : lengthExt literals.length = [] := if_neg (by omega)
    rw [hext, List.nil_append, hnibble, List.take_left' rfl, List.drop_left' rfl, htail, hskip,
      hdecode, hmatch]
    split
    · rename_i hnear
      have hcode : lengthNibble matchCode = matchCode := by
        have := hnear.1
        unfold lengthNibble at this ⊢
        omega
      have hnone : lengthExt matchCode = [] := by
        refine if_neg ?_
        have := hnear.1
        unfold lengthNibble at this
        omega
      rw [hcode, hnone, List.nil_append]
    · rfl
  · obtain ⟨e, he, hread⟩ := @readLiteralLength literals.length
      (literals ++ ((encode 2 offset ++ lengthExt matchCode) ++ rest)) (by simp)
    have hlength : lengthNibble literals.length +
        (literals.length - lengthNibble literals.length) = literals.length := by
      unfold lengthNibble
      omega
    have hroom : ¬ (cap < pre.length + literals.length + 12 ∨
        (literals ++ ((encode 2 offset ++ lengthExt matchCode) ++ rest)).length <
          literals.length + 8) := by
      simp only [List.length_append, htwo]
      omega
    rw [hread]
    dsimp only
    rw [if_neg he, hlength, if_neg hroom, List.take_left' rfl, List.drop_left' rfl, htail, hskip,
      hdecode, hmatch]

/-- The last literals end the block. -/
theorem decompressLoop_last {cap fuel : Nat} {pre literals : Bytes}
    (hcap : pre.length + literals.length ≤ cap) :
    decompressLoop cap (fuel + 1) (literalBytes 0 literals) pre = some (pre ++ literals) := by
  obtain ⟨hhigh, _⟩ := toNat_token literals.length 0
  rw [show lengthNibble literals.length * 16 + lengthNibble 0 =
    lengthNibble literals.length * 16 + 0 from rfl] at hhigh
  rw [literalBytes_eq]
  simp only [decompressLoop, hhigh]
  split
  · rename_i hshort
    have hfew : literals.length < 15 := by
      have := hshort.1
      unfold lengthNibble at this
      omega
    have hext : lengthExt literals.length = [] := if_neg (by omega)
    have hmany := hshort.2.1
    rw [hext, List.nil_append] at hmany
    omega
  · obtain ⟨e, he, hread⟩ := @readLiteralLength literals.length literals (Nat.le_refl _)
    have hlength : lengthNibble literals.length +
        (literals.length - lengthNibble literals.length) = literals.length := by
      unfold lengthNibble
      omega
    rw [hread]
    dsimp only
    rw [if_neg he, hlength, if_pos (Or.inr (by omega)), if_pos ⟨rfl, hcap⟩]

/-! ## Blocks -/

/-- The bytes `out` decode to `pre`, whatever block continues them, a capacity of
`cap` given. -/
def DecodesTo (cap : Nat) (out pre : Bytes) : Prop :=
  ∃ k ≤ out.length, ∀ fuel rest, 6 ≤ rest.length →
    decompressLoop cap (fuel + k) (out ++ rest) [] = decompressLoop cap fuel rest pre

theorem DecodesTo.nil (cap : Nat) : DecodesTo cap [] [] :=
  ⟨0, Nat.le_refl 0, fun _ _ _ => rfl⟩

theorem length_sequenceBytes (literals : Bytes) (offset matchCode : Nat) :
    (sequenceBytes literals offset matchCode).length =
      3 + literals.length + (literals.length + 240) / 255 + (matchCode + 240) / 255 := by
  rw [sequenceBytes_eq]
  simp only [List.length_cons, List.length_append, length_encode, length_lengthExt]
  omega

theorem length_literalBytes (mlToken : Nat) (literals : Bytes) :
    (literalBytes mlToken literals).length =
      1 + literals.length + (literals.length + 240) / 255 := by
  rw [literalBytes_eq]
  simp only [List.length_cons, List.length_append, length_lengthExt]
  omega

theorem DecodesTo.sequence {cap offset matchCode : Nat} {out pre literals : Bytes}
    (h : DecodesTo cap out pre) (hword : offset < 65536)
    (hoffset : offset ≤ pre.length + literals.length)
    (hstart : pre.length + literals.length + 12 ≤ cap)
    (hend : pre.length + literals.length + (matchCode + 4) + 5 ≤ cap) :
    DecodesTo cap (out ++ sequenceBytes literals offset matchCode)
      (copyMatch (matchCode + 4) offset (pre ++ literals)) := by
  obtain ⟨k, hk, hdecode⟩ := h
  refine ⟨k + 1, ?_, ?_⟩
  · rw [List.length_append, length_sequenceBytes]
    omega
  · intro fuel rest hrest
    have hmore : 6 ≤ (sequenceBytes literals offset matchCode ++ rest).length := by
      rw [List.length_append]
      omega
    rw [List.append_assoc, ← Nat.add_assoc, Nat.add_right_comm, hdecode (fuel + 1) _ hmore,
      decompressLoop_sequence hrest hword hoffset hstart hend]

/-- A block is complete after at least five last literals. -/
theorem DecodesTo.last {cap : Nat} {out pre literals : Bytes} (h : DecodesTo cap out pre)
    (hmany : 5 ≤ literals.length) (hcap : pre.length + literals.length ≤ cap) :
    decompressLoop cap (out ++ literalBytes 0 literals).length (out ++ literalBytes 0 literals) [] =
      some (pre ++ literals) := by
  obtain ⟨k, hk, hdecode⟩ := h
  have hlen := length_literalBytes 0 literals
  obtain ⟨fuel, hfuel⟩ : ∃ fuel, (out ++ literalBytes 0 literals).length = fuel + 1 + k := by
    refine ⟨(out ++ literalBytes 0 literals).length - k - 1, ?_⟩
    rw [List.length_append]
    omega
  rw [hfuel, hdecode (fuel + 1) _ (by omega), decompressLoop_last hcap]

/-- The bytes `op` stand for the source up to `anchor`, which leaves room for the
last literals. -/
structure Emitted (src op : Bytes) (anchor : Nat) : Prop where
  decodes : ∀ cap, src.length ≤ cap → DecodesTo cap op (src.take anchor)
  size : op.length ≤ anchor + anchor / 255
  room : anchor + 5 ≤ src.length

/-- The bytes at `ip` are worth a match with those at `m`. -/
structure MatchAt (src : Bytes) (ip m : Nat) : Prop where
  room : ip + 12 ≤ src.length
  lt : m < ip
  near : ip - m ≤ 65535
  four_le : 4 ≤ shared src ip m (matchlimit src)

/-- What holds of the encoder at the head of its loop. -/
structure Encoder.Inv (src : Bytes) (st : Encoder) : Prop where
  written : Emitted src st.op st.anchor
  table : Below (st.anchor + 1) st.hashTable
  next : ∀ m, st.next = some m → MatchAt src st.anchor m

/-- What a turn leaves behind. -/
def Turn.Keeps (src : Bytes) : Turn → Prop
  | .full => True
  | .lastLiterals op anchor => Emitted src op anchor
  | .again st => st.Inv src

theorem matchAt_of_readWord {src : Bytes} {tableType : TableType} {ip m : Nat}
    (hsize : tableType = .byU16 → src.length < 65536 + 11) (hroom : ip + 12 ≤ src.length)
    (hlt : m < ip) (hnear : tooFar m ip tableType = false)
    (hread : readWord 4 src m = readWord 4 src ip) : MatchAt src ip m where
  room := hroom
  lt := hlt
  near := near_of_tooFar hsize hroom hnear
  four_le := by
    unfold matchlimit
    exact (readWord_eq_iff hlt.le (by omega) (Nat.sub_le _ _)).mp hread

/-- Writing one sequence. -/
theorem Emitted.sequence {src op : Bytes} {anchor ip m : Nat} (h : Emitted src op anchor)
    (hanchor : anchor ≤ ip) (hmatch : MatchAt src ip m) {matchCode : Nat}
    (hcode : shared src ip m (matchlimit src) = 4 + matchCode) :
    Emitted src (op ++ sequenceBytes ((src.take ip).drop anchor) (ip - m) matchCode)
      (ip + (matchCode + 4)) := by
  have hroom := hmatch.room
  have hnear := hmatch.near
  have hend := shared_le src ip m (matchlimit src)
  have hlimit : matchlimit src = src.length - 5 := rfl
  have hpre : (src.take anchor).length = anchor := by
    rw [List.length_take]
    omega
  have hlits : ((src.take ip).drop anchor).length = ip - anchor := by
    rw [List.length_drop, List.length_take]
    omega
  have hjoin : src.take anchor ++ (src.take ip).drop anchor = src.take ip := by
    have hsplit := List.take_append_drop anchor (src.take ip)
    rwa [List.take_take, Nat.min_eq_left hanchor] at hsplit
  have hcopy : copyMatch (matchCode + 4) (ip - m) (src.take ip) =
      src.take (ip + (matchCode + 4)) :=
    @copyMatch_take src (matchlimit src) ip m (matchCode + 4) hmatch.lt (Nat.sub_le _ _)
      (by omega)
  refine ⟨?_, ?_, by omega⟩
  · intro cap hcap
    have hseq := @DecodesTo.sequence cap (ip - m) matchCode op (src.take anchor)
      ((src.take ip).drop anchor) (h.decodes cap hcap) (by omega) (by omega) (by omega)
      (by omega)
    rwa [hjoin, hcopy] at hseq
  · have hsize := h.size
    rw [List.length_append, length_sequenceBytes, hlits]
    omega

theorem encodeMatch_keeps {src : Bytes} {tableType : TableType} {limit : OutputLimit}
    {table : HashTable} {op : Bytes} {anchor ip m : Nat}
    (hsize : tableType = .byU16 → src.length < 65536 + 11) (hwritten : Emitted src op anchor)
    (hanchor : anchor ≤ ip) (hmatch : MatchAt src ip m)
    (htable : Below (ip + shared src ip m (matchlimit src)) table) :
    (encodeMatch src tableType limit table op ((src.take ip).drop anchor) ip m).Keeps src := by
  have hroom := hmatch.room
  have hlimit : matchlimit src = src.length - 5 := rfl
  have hcount : lz4Count src (ip + 4) (m + 4) (matchlimit src) =
      shared src (ip + 4) (m + 4) (matchlimit src) :=
    lz4Count_eq (Nat.add_le_add_right hmatch.lt.le 4) (Nat.sub_le _ _)
  have hcode : shared src ip m (matchlimit src) =
      4 + lz4Count src (ip + 4) (m + 4) (matchlimit src) := by
    rw [hcount]
    exact shared_eq_add hmatch.four_le
  have hseq := hwritten.sequence hanchor hmatch hcode
  unfold encodeMatch
  generalize lz4Count src (ip + 4) (m + 4) (matchlimit src) = matchCode at *
  dsimp only
  split
  · exact trivial
  · split
    · exact hseq
    · rename_i hmore
      have hbelow : Below (ip + (matchCode + 4)) (putPosition src tableType
          (ip + (matchCode + 4) - 2) table) :=
        (htable.mono (by omega)).putIndexOnHash (by omega) _ _
      refine ⟨hseq, (hbelow.mono (Nat.le_succ _)).putIndexOnHash (Nat.lt_succ_self _) _ _, ?_⟩
      intro m' hm'
      dsimp only at hm'
      split at hm'
      · rename_i hfound
        cases hm'
        unfold mflimitPlusOne at hmore
        exact matchAt_of_readWord hsize (by dsimp only; omega) (hbelow _) hfound.1 hfound.2
      · cases hm'

/-- **One turn of the main loop keeps the invariant.** -/
theorem encodeTurn_keeps {src : Bytes} {tableType : TableType} {limit : OutputLimit}
    {acceleration : Acceleration} {st : Encoder}
    (hsize : tableType = .byU16 → src.length < 65536 + 11) (hlen : 12 ≤ src.length)
    (h : st.Inv src) : (encodeTurn src tableType limit acceleration st).Keeps src := by
  unfold encodeTurn
  split
  · rename_i m hnext
    have hnone : (src.take st.anchor).drop st.anchor = [] := by simp
    have hmatch := h.next m hnext
    have hfour := hmatch.four_le
    rw [← hnone]
    exact encodeMatch_keeps hsize h.written (Nat.le_refl _) hmatch (h.table.mono (by omega))
  · split
    · exact h.written
    · rename_i ip m table hfind
      have hle : st.anchor + 1 ≤ ip := le_findMatch hfind
      obtain ⟨hroom, hlt, hnear, hread, htable⟩ := findMatch_spec hlen h.table hfind
      have hfound := matchAt_of_readWord hsize hroom hlt hnear hread
      have hlimit : matchlimit src = src.length - 5 := rfl
      obtain ⟨k, hip, hm, hback, hshared⟩ := @catchUp_spec src st.anchor ip m (matchlimit src)
        (by omega) hlt (by omega) (Nat.sub_le _ _)
      have hfour := hfound.four_le
      have hfar := hfound.near
      dsimp only
      split
      · exact trivial
      · refine encodeMatch_keeps hsize h.written hback ?_ (htable.mono (by omega))
        exact ⟨by omega, by omega, by omega, by omega⟩

/-- A finished block: it decodes to the source, and respects its bound and its limit. -/
structure Encodes (src : Bytes) (limit : OutputLimit) (out : Bytes) : Prop where
  decodes : ∀ cap, src.length ≤ cap → decompressLoop cap out.length out [] = some src
  size : out.length ≤ src.length + src.length / 255 + 2
  fits : ∀ maxOutputSize, limit = .limitedOutput maxOutputSize → out.length ≤ maxOutputSize

/-- The last literals are written only when the limit allows it. -/
theorem lastLiterals_eq_some {src op out : Bytes} {limit : OutputLimit} {anchor : Nat}
    (h : lastLiterals src limit op anchor = some out) :
    out = op ++ literalBytes 0 (src.drop anchor) ∧
      ∀ maxOutputSize, limit = .limitedOutput maxOutputSize → out.length ≤ maxOutputSize := by
  unfold lastLiterals at h
  dsimp only at h
  split at h
  · cases h
  · rename_i hfits
    cases h
    refine ⟨rfl, ?_⟩
    rintro maxOutputSize rfl
    have hroom : ¬ maxOutputSize < op.length + (src.length - anchor) + 1 +
        (src.length - anchor + 255 - 15) / 255 := by
      simpa [OutputLimit.exceeded] using hfits
    rw [List.length_append, length_literalBytes, List.length_drop]
    omega

theorem Emitted.encodes {src op out : Bytes} {limit : OutputLimit} {anchor : Nat}
    (h : Emitted src op anchor) (hlast : lastLiterals src limit op anchor = some out) :
    Encodes src limit out := by
  have hroom := h.room
  have hpre : (src.take anchor).length = anchor := by
    rw [List.length_take]
    omega
  have hlits : (src.drop anchor).length = src.length - anchor := List.length_drop
  obtain ⟨rfl, hfits⟩ := lastLiterals_eq_some hlast
  refine ⟨?_, ?_, hfits⟩
  · intro cap hcap
    rw [(h.decodes cap hcap).last (by omega) (by omega), List.take_append_drop]
  · have hsize := h.size
    rw [List.length_append, length_literalBytes, hlits]
    omega

/-- A source too short for a match is written as literals. -/
theorem encodes_of_short {src out : Bytes} {limit : OutputLimit}
    (hlast : lastLiterals src limit [] 0 = some out) : Encodes src limit out := by
  obtain ⟨hout, hfits⟩ := lastLiterals_eq_some hlast
  rw [List.nil_append, List.drop_zero] at hout
  have hlen := length_literalBytes 0 src
  refine ⟨?_, ?_, hfits⟩
  · intro cap hcap
    obtain ⟨fuel, hfuel⟩ : ∃ fuel, out.length = fuel + 1 := by
      refine ⟨out.length - 1, ?_⟩
      rw [hout]
      omega
    rw [hfuel, hout, decompressLoop_last (by simpa using hcap), List.nil_append]
  · rw [hout, hlen]
    omega

theorem encodeLoop_encodes {src out : Bytes} {tableType : TableType} {limit : OutputLimit}
    {acceleration : Acceleration} {st : Encoder}
    (hsize : tableType = .byU16 → src.length < 65536 + 11) (hlen : 12 ≤ src.length)
    (hinv : st.Inv src) (h : encodeLoop src tableType limit acceleration st = some out) :
    Encodes src limit out := by
  fun_induction encodeLoop src tableType limit acceleration st with
  | case1 => cases h
  | case2 st op anchor hturn =>
      have hkeeps := @encodeTurn_keeps src tableType limit acceleration st hsize hlen hinv
      rw [hturn] at hkeeps
      exact Emitted.encodes hkeeps h
  | case3 st st' hturn ih =>
      have hkeeps := @encodeTurn_keeps src tableType limit acceleration st hsize hlen hinv
      rw [hturn] at hkeeps
      exact ih hkeeps h

theorem Encoder.inv_start {src : Bytes} (tableType : TableType) (hlen : 5 ≤ src.length) :
    (Encoder.start src tableType).Inv src := by
  have hzero : Below 1 fun _ => 0 := fun _ => Nat.one_pos
  refine ⟨⟨?_, by simp [Encoder.start], hlen⟩, hzero.putIndexOnHash Nat.one_pos _ _, ?_⟩
  · intro cap _
    exact DecodesTo.nil cap
  · intro m hm
    cases hm

/-- Whatever `LZ4_compress_generic` returns encodes its source. -/
theorem compressGeneric_encodes {src out : Bytes} {limit : OutputLimit} {tableType : TableType}
    {acceleration : Acceleration} (hsrc : src ≠ [])
    (h : compressGeneric src limit tableType acceleration = some out) :
    Encodes src limit out := by
  unfold compressGeneric at h
  split at h
  · cases h
  · split at h
    · rename_i hempty
      exact absurd (List.length_eq_zero_iff.mp hempty) hsrc
    · unfold compressGenericValidated at h
      split at h
      · cases h
      · rename_i hlarge
        split at h
        · exact encodes_of_short h
        · rename_i hshort
          have hsize : tableType = .byU16 → src.length < 65536 + 11 := by
            intro htype
            by_contra hmany
            exact hlarge ⟨htype, Nat.le_of_not_lt hmany⟩
          exact encodeLoop_encodes hsize (by omega)
            (Encoder.inv_start tableType (by omega)) h

/-! ## No failure without a limit -/

theorem encodeTurn_notLimited (src : Bytes) (tableType : TableType)
    (acceleration : Acceleration) (st : Encoder) :
    encodeTurn src tableType .notLimited acceleration st ≠ .full := by
  have hmatch : ∀ table op literals ip m,
      encodeMatch src tableType .notLimited table op literals ip m ≠ .full := by
    intro table op literals ip m
    simp only [encodeMatch, OutputLimit.exceeded, Bool.false_eq_true, if_false]
    split <;> simp
  unfold encodeTurn
  split
  · exact hmatch _ _ _ _ _
  · split
    · simp
    · exact hmatch _ _ _ _ _

theorem lastLiterals_notLimited (src op : Bytes) (anchor : Nat) :
    lastLiterals src .notLimited op anchor ≠ none := by
  simp [lastLiterals, OutputLimit.exceeded]

theorem encodeLoop_notLimited (src : Bytes) (tableType : TableType)
    (acceleration : Acceleration) (st : Encoder) :
    encodeLoop src tableType .notLimited acceleration st ≠ none := by
  fun_induction encodeLoop src tableType .notLimited acceleration st with
  | case1 st hturn => exact absurd hturn (encodeTurn_notLimited src tableType acceleration st)
  | case2 st op anchor hturn => exact lastLiterals_notLimited src op anchor
  | case3 st st' hturn ih => exact ih

theorem compressGeneric_notLimited {src : Bytes} {tableType : TableType}
    {acceleration : Acceleration} (hmax : src.length ≤ maxInputSize)
    (hsize : tableType = .byU16 → src.length < 65536 + 11) :
    compressGeneric src .notLimited tableType acceleration ≠ none := by
  have hlarge : ¬ (tableType = .byU16 ∧ 65536 + 11 ≤ src.length) := by
    intro h
    have := hsize h.1
    omega
  unfold compressGeneric
  rw [if_neg (Nat.not_lt.mpr hmax)]
  split
  · simp
  · unfold compressGenericValidated
    rw [if_neg hlarge]
    split
    · exact lastLiterals_notLimited src [] 0
    · exact encodeLoop_notLimited src tableType acceleration _

/-! ## The compressor -/

theorem lz4CompressFast_nil {maxOutputSize : Nat} {acceleration : Int} {out : Bytes}
    (h : lz4CompressFast [] maxOutputSize acceleration = some out) :
    out = [0] ∧ 0 < maxOutputSize := by
  have hempty : ∀ limit tableType acceleration, compressGeneric [] limit tableType acceleration =
      if limit = .limitedOutput 0 then none else some [0] := by
    intro limit tableType acceleration
    simp [compressGeneric]
  unfold lz4CompressFast compressFastExtState at h
  dsimp only at h
  rw [hempty] at h
  by_cases hbound : compressBound ([] : Bytes).length ≤ maxOutputSize
  · rw [if_pos hbound, if_neg (by simp)] at h
    simp only [compressBound, List.length_nil, Nat.not_lt_zero, if_false] at hbound
    exact ⟨(Option.some.inj h).symm, by omega⟩
  · rw [if_neg hbound] at h
    by_cases hzero : maxOutputSize = 0
    · rw [if_pos (by rw [hzero])] at h
      cases h
    · rw [if_neg (by simpa using hzero)] at h
      exact ⟨(Option.some.inj h).symm, Nat.pos_of_ne_zero hzero⟩

theorem lz4CompressFast_encodes {src out : Bytes} {maxOutputSize : Nat} {acceleration : Int}
    (hsrc : src ≠ []) (h : lz4CompressFast src maxOutputSize acceleration = some out) :
    Encodes src (if compressBound src.length ≤ maxOutputSize then .notLimited
      else .limitedOutput maxOutputSize) out :=
  compressGeneric_encodes hsrc h

theorem length_le_of_compressFast {src out : Bytes} {maxOutputSize : Nat} {acceleration : Int}
    (h : lz4CompressFast src maxOutputSize acceleration = some out) :
    src.length ≤ maxInputSize := by
  by_contra hlarge
  simp only [lz4CompressFast, compressFastExtState, compressGeneric] at h
  rw [if_pos (Nat.lt_of_not_le hlarge)] at h
  cases h

theorem length_compressFast_le {src out : Bytes} {maxOutputSize : Nat} {acceleration : Int}
    (h : lz4CompressFast src maxOutputSize acceleration = some out) :
    out.length ≤ maxOutputSize := by
  by_cases hsrc : src = []
  · subst hsrc
    obtain ⟨rfl, hpos⟩ := lz4CompressFast_nil h
    exact hpos
  · have hencodes := lz4CompressFast_encodes hsrc h
    by_cases hbound : compressBound src.length ≤ maxOutputSize
    · have hsize := hencodes.size
      have hmax := length_le_of_compressFast h
      unfold compressBound at hbound
      rw [if_neg (Nat.not_lt.mpr hmax)] at hbound
      omega
    · rw [if_neg hbound] at hencodes
      exact hencodes.fits maxOutputSize rfl

theorem decompressSafe_compressFast {src out : Bytes} {maxOutputSize cap : Nat}
    {acceleration : Int} (h : lz4CompressFast src maxOutputSize acceleration = some out)
    (hcap : src.length ≤ cap) : lz4DecompressSafe out cap = some src := by
  by_cases hsrc : src = []
  · subst hsrc
    obtain ⟨rfl, _⟩ := lz4CompressFast_nil h
    unfold lz4DecompressSafe
    split
    · rfl
    · simp [decompressLoop]
  · have hpos := List.length_pos_iff.mpr hsrc
    unfold lz4DecompressSafe
    rw [if_neg (by omega)]
    exact (lz4CompressFast_encodes hsrc h).decodes cap hcap

/-- The compressor of the enclave, with the acceleration `ProcessUniqueChunk` asks for. -/
def lz4Compressor : Compressor where
  compressFast src cap := (lz4CompressFast src cap 3).getD []
  length_compressFast_le src cap := by
    cases h : lz4CompressFast src cap 3 with
    | none => exact Nat.zero_le _
    | some out => exact length_compressFast_le h
  decompressSafe_compressFast src cap hsrc hne := by
    cases h : lz4CompressFast src cap 3 with
    | none =>
        rw [h] at hne
        exact absurd rfl hne
    | some out => exact decompressSafe_compressFast h hsrc

end Debe
