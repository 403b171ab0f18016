import Debe.Structures

/-!
# The LZ4 block decoder

`LZ4_decompress_safe` is `LZ4_decompress_generic` with the end-of-input
condition, full-block decoding and no dictionary.  The model follows its safe
loop, two-stage shortcut included; the fast loop copies in wider strides but
accepts and rejects the same sequences.  A block is read token by token: a run
of literals, then a back-reference into the output, until a last run of
literals uses up the input exactly.

The distances to the ends of the two buffers that the source tests with
pointer arithmetic are tests on the number of input bytes left and of output
bytes made so far.  A zero back-reference is not refused: the source clears the
bytes it is about to copy onto themselves, so the match is a run of zeros.
-/

namespace Debe

open LittleEndian

/-- `variable_length_error`. -/
inductive LengthError
  | ok
  | loopError
  | initialError
  deriving DecidableEq, Repr

/-- The `do` loop of `read_variable_length`; `lim` is the distance from `lencheck`
to the end of the input. -/
def readLengthLoop (lim : Nat) : Bytes → LengthError × Nat × Bytes
  | [] => (.loopError, 0, [])
  | s :: ip =>
      if ip.length ≤ lim then (.loopError, s.toNat, ip)
      else if s = 255 then
        let r := readLengthLoop lim ip
        (r.1, 255 + r.2.1, r.2.2)
      else (.ok, s.toNat, ip)

/-- `read_variable_length`. -/
def readVariableLength (lim : Nat) (initialCheck : Bool) (ip : Bytes) :
    LengthError × Nat × Bytes :=
  if initialCheck && ip.length ≤ lim then (.initialError, 0, ip) else readLengthLoop lim ip

/-- Copy `len` bytes from `offset` back in the output, one at a time so that an
overlapping copy repeats what it has just written.  Offset zero reads nothing and
copies zeros. -/
def copyMatch : Nat → Nat → Bytes → Bytes
  | 0, _, op => op
  | n+1, offset, op => copyMatch n offset (op ++ [op.getD (op.length - offset) 0])

/-- The code at `_copy_match`: finish the match length, check the reference and the
distance to the end of the output, copy.  Returns the input left and the output. -/
def decodeMatch (cap mlToken offset : Nat) (ip op : Bytes) : Option (Bytes × Bytes) :=
  let ext := if mlToken = 15 then readVariableLength 4 false ip else (.ok, 0, ip)
  let length := mlToken + ext.2.1 + 4
  if ext.1 ≠ .ok then none
  else if op.length < offset then none
  else if cap < op.length + length + 5 then none
  else some (ext.2.2, copyMatch length offset op)

/-- The main loop.  `fuel` bounds the number of sequences; each takes a token. -/
def decompressLoop (cap : Nat) : Nat → Bytes → Bytes → Option Bytes
  | 0, _, _ => none
  | _+1, [], _ => none
  | fuel+1, token :: ip, op =>
      let ll := token.toNat / 16
      let ml := token.toNat % 16
      -- the two-stage shortcut: short literals far from both ends
      if ll ≠ 15 ∧ 16 < ip.length ∧ op.length + 32 ≤ cap then
        let op := op ++ ip.take ll
        let ip := ip.drop ll
        let offset := decode (ip.take 2)
        let ip := ip.drop 2
        if ml ≠ 15 ∧ 8 ≤ offset ∧ offset ≤ op.length then
          decompressLoop cap fuel ip (copyMatch (ml + 4) offset op)
        else
          match decodeMatch cap ml offset ip op with
          | some (ip, op) => decompressLoop cap fuel ip op
          | none => none
      else
        -- a loop error of the literal length is not looked at by the source
        let ext := if ll = 15 then readVariableLength 15 true ip else (.ok, 0, ip)
        let length := ll + ext.2.1
        let ip := ext.2.2
        if ext.1 = .initialError then none
        else if cap < op.length + length + 12 ∨ ip.length < length + 8 then
          -- the last run must use up the input and fit the output
          if length = ip.length ∧ op.length + length ≤ cap then some (op ++ ip) else none
        else
          let op := op ++ ip.take length
          let ip := ip.drop length
          match decodeMatch cap ml (decode (ip.take 2)) (ip.drop 2) op with
          | some (ip, op) => decompressLoop cap fuel ip op
          | none => none

/-- `LZ4_decompress_safe`: the decoded bytes, or `none` for a negative result. -/
def lz4DecompressSafe (src : Bytes) (cap : Nat) : Option Bytes :=
  if cap = 0 then (if src = [0] then some [] else none)
  else decompressLoop cap src.length src []

@[simp] theorem length_copyMatch (n offset : Nat) (op : Bytes) :
    (copyMatch n offset op).length = op.length + n := by
  induction n generalizing op with
  | zero => rfl
  | succ n ih =>
      rw [copyMatch, ih, List.length_append, List.length_singleton]
      omega

theorem decodeMatch_length {cap mlToken offset : Nat} {ip op ip' op' : Bytes}
    (h : decodeMatch cap mlToken offset ip op = some (ip', op')) : op'.length ≤ cap := by
  unfold decodeMatch at h
  generalize (if mlToken = 15 then readVariableLength 4 false ip else (.ok, 0, ip)) = ext at h
  dsimp only at h
  split at h
  · cases h
  · split at h
    · cases h
    · split at h
      · cases h
      · rename_i hfit
        cases h
        rw [length_copyMatch]
        omega

/-- The decoder never writes past the capacity it was given. -/
theorem decompressLoop_length {cap fuel : Nat} {ip op out : Bytes} (hop : op.length ≤ cap)
    (h : decompressLoop cap fuel ip op = some out) : out.length ≤ cap := by
  induction fuel generalizing ip op with
  | zero => simp [decompressLoop] at h
  | succ fuel ih =>
      cases ip with
      | nil => simp [decompressLoop] at h
      | cons token ip =>
          have hll : token.toNat / 16 ≤ 15 := by
            have := token.toNat_lt
            omega
          have hml : token.toNat % 16 ≤ 15 := by omega
          simp only [decompressLoop] at h
          split at h
          · rename_i hshort
            split at h
            · rename_i hmatch
              refine ih ?_ h
              rw [length_copyMatch, List.length_append, List.length_take]
              omega
            · split at h
              · rename_i hdec
                exact ih (decodeMatch_length hdec) h
              · cases h
          · generalize (if token.toNat / 16 = 15 then readVariableLength 15 true ip
              else (.ok, 0, ip)) = ext at h
            split at h
            · cases h
            · split at h
              · split at h
                · rename_i hend
                  cases h
                  rw [List.length_append]
                  omega
                · cases h
              · split at h
                · rename_i hdec
                  exact ih (decodeMatch_length hdec) h
                · cases h

theorem lz4DecompressSafe_length {src out : Bytes} {cap : Nat}
    (h : lz4DecompressSafe src cap = some out) : out.length ≤ cap := by
  unfold lz4DecompressSafe at h
  split at h
  · split at h
    · cases h
      exact Nat.zero_le _
    · cases h
  · exact decompressLoop_length (Nat.zero_le _) h

/-- `LZ4_compress_fast` with acceleration 3.  The empty string stands for the
result `0`: the block would not fit into `cap` bytes.  Any other result is a
block of at most `cap` bytes that the decoder maps back to the source. -/
structure Compressor where
  compressFast : Bytes → Nat → Bytes
  length_compressFast_le : ∀ src cap, (compressFast src cap).length ≤ cap
  decompressSafe_compressFast : ∀ src cap, src.length ≤ maxChunkSize →
    compressFast src cap ≠ [] →
    lz4DecompressSafe (compressFast src cap) maxChunkSize = some src

/-- A block of one short run of literals. -/
def literalBlock (src : Bytes) : Bytes :=
  UInt8.ofNat (src.length * 16) :: src

/-- A run of fewer than fifteen literals decodes to itself. -/
theorem lz4DecompressSafe_literalBlock {src : Bytes} (h : src.length < 15) :
    lz4DecompressSafe (literalBlock src) maxChunkSize = some src := by
  have hll : src.length * 16 % 256 / 16 = src.length := by omega
  have hne : src.length ≠ 15 := by omega
  have hshort : ¬ 16 < src.length := by omega
  have hcap : src.length ≤ 16384 := by omega
  simp [lz4DecompressSafe, maxChunkSize, literalBlock, decompressLoop, hll, hne, hshort, hcap]

/-- The compressor that knows no matches: it emits a literal run when that fits. -/
def literalCompressor : Compressor where
  compressFast src cap :=
    if src.length < 15 ∧ (literalBlock src).length ≤ cap then literalBlock src else []
  length_compressFast_le src cap := by
    split
    · rename_i h
      exact h.2
    · simp
  decompressSafe_compressFast src cap _ hne := by
    split at hne
    · rename_i h
      rw [if_pos h]
      exact lz4DecompressSafe_literalBlock h.1
    · exact absurd rfl hne

end Debe
