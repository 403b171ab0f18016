import Debe.FreqIndex
import Debe.Lib.FileStream
import Debe.Lib.Greedy

/-!
# Content-defined chunking

`Chunker::FastCDC` reads the file in windows of `readSize_` bytes, cuts chunks off the
window as long as it is sure of them, and seeks back to the last cut.  `CutPoint` rolls a
hash over the bytes behind `minChunkSize_` and cuts at the first byte where the hash meets a
mask, a strict one up to `normalSize_` and a loose one from there to `maxChunkSize_`.

The table `GEAR` is a parameter, and so is `bits`, which the source computes from the
average size in floating point.
-/

namespace Debe

open Greedy

/-- The configuration of a `Chunker`. -/
structure ChunkerConfig where
  minChunkSize : Nat
  avgChunkSize : Nat
  maxChunkSize : Nat
  readSize : Nat
  bits : UInt32
  gear : UInt8 → UInt32

/-- `tool::DivCeil`. -/
def divCeil (a b : UInt32) : UInt32 :=
  if a % b = 0 then a / b else a / b + 1

/-- `tool::CompareLimit`. -/
def compareLimit (input lower upper : UInt32) : UInt32 :=
  if input ≤ lower then lower else if upper ≤ input then upper else input

/-- `CalNormalSize`. -/
def calNormalSize (min av max : UInt32) : UInt32 :=
  let off := min + divCeil min 2
  let off := if av < off then av else off
  let diff := av - off
  if max < diff then max else diff

/-- `GenerateFastCDCMask`. -/
def generateFastCDCMask (bits : UInt32) : UInt32 :=
  (1 <<< compareLimit bits 1 31) - 1

namespace ChunkerConfig

variable (c : ChunkerConfig)

/-- `normalSize_`. -/
def normalSize : Nat :=
  (calNormalSize (UInt32.ofNat c.minChunkSize) (UInt32.ofNat c.avgChunkSize)
    (UInt32.ofNat c.maxChunkSize)).toNat

/-- `maskS_`. -/
def maskS : UInt32 := generateFastCDCMask (c.bits + 1)

/-- `maskL_`. -/
def maskL : UInt32 := generateFastCDCMask (c.bits - 1)

/-- One loop of `CutPoint`, over the bytes from `i` to its bound: a cut, or the index and the
hash behind the last byte. -/
def scan (mask : UInt32) : Bytes → Nat → UInt32 → Nat ⊕ (Nat × UInt32)
  | [], i, fp => .inr (i, fp)
  | b :: bs, i, fp =>
      let fp := (fp >>> 1) + c.gear b
      if fp &&& mask = 0 then .inl (i + 1) else scan mask bs (i + 1) fp

/-- `CutPoint`. -/
def cutPoint (src : Bytes) (len : Nat) : Nat :=
  let i := min len (c.minChunkSize % 2 ^ 32)
  let n := min c.normalSize len
  match c.scan c.maskS ((src.take n).drop i) i 0 with
  | .inl cut => cut
  | .inr (i, fp) =>
      let n := min (c.maxChunkSize % 2 ^ 32) len
      match c.scan c.maskL ((src.take n).drop i) i fp with
      | .inl cut => cut
      | .inr (i, _) => i

end ChunkerConfig

/-- What goes into the queue to the sender: `Data_t`. -/
inductive MQData
  | chunk (data : Chunk)
  | recipeEnd (recipeHead : FileRecipeHead)
  deriving DecidableEq, Repr

/-- What `FastCDC` counts, and the chunks it pushed. -/
structure ChunkingState where
  fileSize : UInt64
  chunkIDCnt : UInt64
  pushed : List Chunk
  deriving DecidableEq, Repr

/-- Push `cp` bytes of the window as a chunk.  `Chunk_t` has room for `MAX_CHUNK_SIZE`. -/
def pushChunk (data : Bytes) (cp : Nat) (s : ChunkingState) : Except Fault ChunkingState :=
  if h : cp ≤ maxChunkSize then
    .ok {
      fileSize := s.fileSize + UInt64.ofNat cp
      chunkIDCnt := s.chunkIDCnt + 1
      pushed := s.pushed ++ [⟨data.take cp, (List.length_take_le cp data).trans h⟩] }
  else .error .outOfRange

/-- The inner loop of `FastCDC` over the window `buffer`, for at most `fuel` rounds. -/
def chunkWindow (c : ChunkerConfig) (buffer : Bytes) (eof : Bool) :
    Nat → Nat → ChunkingState → Option (Except Fault (Nat × ChunkingState))
  | 0, _, _ => none
  | fuel+1, localOffset, s =>
      if c.maxChunkSize ≤ buffer.length - localOffset ∨
          eof = true ∧ localOffset < buffer.length then
        let cp := c.cutPoint (buffer.drop localOffset) ((buffer.length - localOffset) % 2 ^ 32)
        match pushChunk (buffer.drop localOffset) cp s with
        | .error fault => some (.error fault)
        | .ok s => chunkWindow c buffer eof fuel (localOffset + cp) s
      else some (.ok (localOffset, s))

/-- The outer loop of `FastCDC`, for at most `fuel` rounds. -/
def chunkFile (c : ChunkerConfig) :
    Nat → InStream UInt8 → Nat → ChunkingState → Option (Except Fault ChunkingState)
  | 0, _, _, _ => none
  | fuel+1, chunkingFile, totalOffset, s =>
      let r := chunkingFile.read c.readSize
      if r.1.length = 0 then some (.ok s)
      else
        match chunkWindow c r.1 r.2.eofbit fuel 0 s with
        | none => none
        | some (.error fault) => some (.error fault)
        | some (.ok (localOffset, s)) =>
            if r.2.eofbit then some (.ok s)
            else chunkFile c fuel (r.2.seekg (totalOffset + localOffset))
              (totalOffset + localOffset) s

/-- What is pushed at the end: the chunks and the recipe head. -/
def finishChunking (s : ChunkingState) : List MQData :=
  s.pushed.map .chunk ++ [.recipeEnd { fileSize := s.fileSize, totalChunkNum := s.chunkIDCnt }]

/-- `FastCDC`, for at most `fuel` rounds of each loop. -/
def fastCDC (c : ChunkerConfig) (fuel : Nat) (file : Bytes) :
    Option (Except Fault (List MQData)) :=
  (chunkFile c fuel (.opened file) 0 { fileSize := 0, chunkIDCnt := 0, pushed := [] }).map
    fun r => r.map finishChunking

/-- The sizes that `ChunkerInit` accepts, with a window that holds the largest chunk and has a
32-bit length. -/
structure ChunkerConfig.Valid (c : ChunkerConfig) : Prop where
  min_lt_avg : c.minChunkSize < c.avgChunkSize
  avg_lt_max : c.avgChunkSize < c.maxChunkSize
  max_le_read : c.maxChunkSize ≤ c.readSize
  read_lt : c.readSize < 2 ^ 32

/-! ## `CutPoint` -/

variable {c : ChunkerConfig}

/-- The chunk that `CutPoint` finds at the front of all that is left of a file. -/
def ChunkerConfig.cut (c : ChunkerConfig) (rest : Bytes) : Nat := c.cutPoint rest rest.length

/-- A loop of `CutPoint` cuts behind one of its bytes, or passes over all of them. -/
theorem scan_cases (c : ChunkerConfig) (mask : UInt32) (bs : Bytes) (i : Nat) (fp : UInt32) :
    (∃ cut, c.scan mask bs i fp = .inl cut ∧ i < cut ∧ cut ≤ i + bs.length) ∨
    ∃ fp', c.scan mask bs i fp = .inr (i + bs.length, fp') := by
  induction bs generalizing i fp with
  | nil => exact .inr ⟨fp, rfl⟩
  | cons b bs ih =>
      unfold ChunkerConfig.scan
      dsimp only
      split
      · refine .inl ⟨i + 1, rfl, Nat.lt_succ_self i, ?_⟩
        rw [List.length_cons]
        omega
      · rcases ih (i + 1) ((fp >>> 1) + c.gear b) with ⟨cut, hcut, hlt, hle⟩ | ⟨fp', hall⟩
        · refine .inl ⟨cut, hcut, Nat.lt_of_succ_lt hlt, ?_⟩
          rw [List.length_cons]
          omega
        · refine .inr ⟨fp', ?_⟩
          rw [hall, List.length_cons, Nat.add_assoc, Nat.add_comm 1]

theorem normalSize_le (h : c.Valid) : c.normalSize ≤ c.maxChunkSize := by
  have hmax : (UInt32.ofNat c.maxChunkSize).toNat = c.maxChunkSize :=
    UInt32.toNat_ofNat_of_lt' (h.max_le_read.trans_lt h.read_lt)
  have hclamp : ∀ diff max : UInt32, (if max < diff then max else diff) ≤ max := by
    intro diff max
    split
    · exact UInt32.le_refl max
    · rename_i hdiff
      exact UInt32.not_lt.mp hdiff
  exact (UInt32.le_iff_toNat_le.mp (hclamp _ _)).trans_eq hmax

theorem ChunkerConfig.Valid.min_lt_max (h : c.Valid) : c.minChunkSize < c.maxChunkSize :=
  h.min_lt_avg.trans h.avg_lt_max

theorem ChunkerConfig.Valid.max_lt (h : c.Valid) : c.maxChunkSize < 2 ^ 32 :=
  h.max_le_read.trans_lt h.read_lt

theorem length_take_drop (bs : Bytes) {n : Nat} (hn : n ≤ bs.length) (i : Nat) :
    ((bs.take n).drop i).length = n - i := by
  rw [List.length_drop, List.length_take_of_le hn]

/-- The cut is behind the smallest chunk and within the largest, if there are so many bytes. -/
theorem cutPoint_bounds (h : c.Valid) {src : Bytes} {len : Nat} (hlen : len ≤ src.length) :
    min len c.minChunkSize ≤ c.cutPoint src len ∧
    c.cutPoint src len ≤ min c.maxChunkSize len ∧
    (0 < len → 0 < c.cutPoint src len) := by
  have hmin := h.min_lt_max
  have hnormal := normalSize_le h
  unfold ChunkerConfig.cutPoint
  simp only [Nat.mod_eq_of_lt h.max_lt, Nat.mod_eq_of_lt (hmin.trans h.max_lt)]
  have hstrict := length_take_drop src (n := min c.normalSize len) (by omega)
    (min len c.minChunkSize)
  rcases scan_cases c c.maskS ((src.take (min c.normalSize len)).drop (min len c.minChunkSize))
    (min len c.minChunkSize) 0 with ⟨cut, hcut, hlt, hle⟩ | ⟨fp, hall⟩
  · rw [hcut]
    rw [hstrict] at hle
    dsimp only
    omega
  · rw [hall, hstrict]
    dsimp only
    generalize hi : min len c.minChunkSize + (min c.normalSize len - min len c.minChunkSize) = i
    have hloose := length_take_drop src (n := min c.maxChunkSize len) (by omega) i
    rcases scan_cases c c.maskL ((src.take (min c.maxChunkSize len)).drop i) i fp
      with ⟨cut, hcut, hlt, hle⟩ | ⟨fp', hall'⟩
    · rw [hcut]
      rw [hloose] at hle
      dsimp only
      omega
    · rw [hall', hloose]
      dsimp only
      omega

/-- `CutPoint` looks at no more bytes than the largest chunk has. -/
theorem cut_take (h : c.Valid) (rest : Bytes) : c.cut (rest.take c.maxChunkSize) = c.cut rest := by
  have hmin := h.min_lt_max
  have hnormal := normalSize_le h
  have hlen : (rest.take c.maxChunkSize).length = min c.maxChunkSize rest.length :=
    List.length_take
  have hi : min (min c.maxChunkSize rest.length) c.minChunkSize =
      min rest.length c.minChunkSize := by omega
  have hn : min c.normalSize (min c.maxChunkSize rest.length) = min c.normalSize rest.length := by
    omega
  have hn' : min c.maxChunkSize (min c.maxChunkSize rest.length) =
      min c.maxChunkSize rest.length := by omega
  have htake : min (min c.normalSize rest.length) c.maxChunkSize =
      min c.normalSize rest.length := by omega
  have htake' : min (min c.maxChunkSize rest.length) c.maxChunkSize =
      min c.maxChunkSize rest.length := by omega
  unfold ChunkerConfig.cut ChunkerConfig.cutPoint
  simp only [Nat.mod_eq_of_lt h.max_lt, Nat.mod_eq_of_lt (hmin.trans h.max_lt), hlen, hi, hn, hn',
    List.take_take, htake, htake']

/-- `CutPoint` is a rule for cutting with the lookahead `maxChunkSize_`. -/
theorem cut_rule (h : c.Valid) : Rule c.cut c.minChunkSize c.maxChunkSize where
  pos := fun rest hrest =>
    (cutPoint_bounds h (Nat.le_refl rest.length)).2.2 (List.length_pos_of_ne_nil hrest)
  le_length := fun rest =>
    (cutPoint_bounds h (Nat.le_refl rest.length)).2.1.trans (Nat.min_le_right _ _)
  le_most := fun rest =>
    (cutPoint_bounds h (Nat.le_refl rest.length)).2.1.trans (Nat.min_le_left _ _)
  le_cut := by
    intro rest
    obtain ⟨hlo, hhi, -⟩ := cutPoint_bounds h (Nat.le_refl rest.length)
    have hmin := h.min_lt_max
    unfold ChunkerConfig.cut
    omega
  lookahead := by
    intro rest rest' htake
    rw [← cut_take h rest, htake, cut_take h rest']

/-! ## The windows -/

/-- Push a piece of the file. -/
def pushPiece (s : ChunkingState) (piece : Bytes) : Except Fault ChunkingState :=
  pushChunk piece piece.length s

theorem pushChunk_eq {data : Bytes} {cp : Nat} (hcp : cp ≤ data.length) (s : ChunkingState) :
    pushChunk data cp s = pushPiece s (data.take cp) := by
  have hlen : (data.take cp).length = cp := List.length_take_of_le hcp
  unfold pushPiece pushChunk
  simp only [hlen, List.take_take, min_self]

/-- **A window.**  `l` is what is left of the file and `buffer` what was read of it.  The loop
pushes the next pieces of `l`, all of them if the window reaches the end, and at least one if
the window holds the largest chunk. -/
theorem chunkWindow_spec (h : c.Valid) {buffer l : Bytes} {eof : Bool} (hbegins : buffer <+: l)
    (heof : eof = true → buffer = l) (hread : buffer.length < 2 ^ 32) (fuel off : Nat)
    (pieces : List Bytes) (hoff : off ≤ buffer.length) (hfuel : buffer.length - off < fuel)
    (hcuts : Cuts c.cut (l.drop off) pieces) :
    ∃ done todo, pieces = done ++ todo ∧ Cuts c.cut (l.drop (off + done.flatten.length)) todo ∧
      off + done.flatten.length ≤ buffer.length ∧
      (∀ s, chunkWindow c buffer eof fuel off s =
        some ((done.foldlM pushPiece s).map fun s => (off + done.flatten.length, s))) ∧
      (eof = true → todo = []) ∧
      (c.maxChunkSize ≤ buffer.length - off → 0 < done.flatten.length) := by
  induction fuel generalizing off pieces with
  | zero => omega
  | succ fuel ih =>
      have hmax := h.min_lt_max
      by_cases hguard : c.maxChunkSize ≤ buffer.length - off ∨ eof = true ∧ off < buffer.length
      · have hwindow : buffer.drop off <+: l.drop off := hbegins.drop off
        have hlen : (buffer.drop off).length = buffer.length - off := List.length_drop
        have hne : l.drop off ≠ [] := by
          have hle := hwindow.length_le
          rw [← List.length_pos_iff]
          omega
        obtain ⟨rest, rfl, hrest⟩ := hcuts.head hne
        obtain ⟨hcut, htake⟩ := (cut_rule h).window hwindow (by
          rcases hguard with hlong | ⟨hend, -⟩
          · exact .inl (hlong.trans_eq hlen.symm)
          · exact .inr (by rw [heof hend]))
        generalize hcp : c.cut (l.drop off) = cp at hcut htake hrest
        have hpos : 0 < cp := hcp ▸ (cut_rule h).pos _ hne
        have hle : cp ≤ buffer.length - off :=
          hlen ▸ hcut ▸ (cut_rule h).le_length (buffer.drop off)
        have hpoint : c.cutPoint (buffer.drop off) ((buffer.length - off) % 2 ^ 32) = cp := by
          rw [Nat.mod_eq_of_lt (by omega), ← hlen]
          exact hcut
        rw [List.drop_drop] at hrest
        obtain ⟨done, todo, rfl, hcuts', hoff', hrun, hend, -⟩ :=
          ih (off + cp) rest (by omega) (by omega) hrest
        have hpiece : ((l.drop off).take cp :: done).flatten.length =
            cp + done.flatten.length := by
          rw [List.flatten_cons, List.length_append, ← htake, List.length_take_of_le (by omega)]
        refine ⟨(l.drop off).take cp :: done, todo, rfl, ?_, ?_, ?_, hend, ?_⟩
        · rw [hpiece, ← Nat.add_assoc]
          exact hcuts'
        · omega
        · intro s
          unfold chunkWindow
          rw [if_pos hguard]
          dsimp only
          rw [hpoint, pushChunk_eq (by omega), htake, hpiece, ← Nat.add_assoc, List.foldlM_cons]
          cases pushPiece s ((l.drop off).take cp) with
          | error fault => rfl
          | ok s' => exact hrun s'
        · omega
      · refine ⟨[], pieces, rfl, hcuts, hoff, ?_, ?_, ?_⟩
        · intro s
          unfold chunkWindow
          rw [if_neg hguard]
          rfl
        · intro hend
          refine hcuts.eq_nil (List.drop_eq_nil_of_le ?_)
          rw [← heof hend]
          exact Nat.le_of_not_lt fun hlt => hguard (.inr ⟨hend, hlt⟩)
        · exact fun hlong => absurd (.inl hlong) hguard

/-- **The file.**  From an offset at which the chunks `pieces` follow, the loop pushes them. -/
theorem chunkFile_spec (h : c.Valid) (file : Bytes) (fuel total : Nat) (pieces : List Bytes)
    (htotal : total ≤ file.length) (hfuel : file.length - total + 1 < fuel)
    (hcuts : Cuts c.cut (file.drop total) pieces) (s : ChunkingState) :
    chunkFile c fuel ⟨some file, total, false, false⟩ total s =
      some (pieces.foldlM pushPiece s) := by
  induction fuel generalizing total pieces s with
  | zero => omega
  | succ fuel ih =>
      have hmax := h.min_lt_max
      have hread := h.max_le_read
      have hlt := h.read_lt
      have hlen : ((file.drop total).take c.readSize).length =
          min c.readSize (file.length - total) := by
        rw [List.length_take, List.length_drop]
      obtain ⟨buffer, hbuffer⟩ : ∃ buffer, (file.drop total).take c.readSize = buffer := ⟨_, rfl⟩
      have hdata := InStream.read_good file total c.readSize
      rw [hbuffer] at hlen hdata
      unfold chunkFile
      simp only [hdata]
      by_cases hnone : buffer.length = 0
      · rw [if_pos hnone, hcuts.eq_nil (List.drop_eq_nil_of_le (by omega))]
        rfl
      · rw [if_neg hnone]
        have hbegins : buffer <+: file.drop total := hbuffer ▸ List.take_prefix _ _
        have heof : decide (buffer.length < c.readSize) = true → buffer = file.drop total := by
          intro hshort
          rw [decide_eq_true_eq] at hshort
          exact hbegins.eq_of_length (by rw [List.length_drop]; omega)
        obtain ⟨done, todo, rfl, hcuts', hoff, hrun, hend, hprogress⟩ :=
          chunkWindow_spec h hbegins heof (by omega) fuel 0 pieces (Nat.zero_le _) (by omega)
            hcuts
        rw [Nat.zero_add, List.drop_drop] at hcuts'
        rw [hrun, List.foldlM_append]
        cases hdone : done.foldlM pushPiece s with
        | error fault => rfl
        | ok s' =>
            dsimp only [Except.map]
            by_cases hshort : buffer.length < c.readSize
            · rw [if_pos (by simpa using hshort), hend (by simpa using hshort)]
              rfl
            · rw [if_neg (by simpa using hshort), Nat.zero_add]
              have hstep := hprogress (by omega)
              have hseek : InStream.seekg ⟨some file, total + buffer.length,
                  decide (buffer.length < c.readSize), decide (buffer.length < c.readSize)⟩
                  (total + done.flatten.length) =
                  ⟨some file, total + done.flatten.length, false, false⟩ := by
                simp [InStream.seekg, hshort]
              rw [hseek]
              exact ih _ todo (by omega) (by omega) hcuts' s'

/-! ## What is pushed -/

/-- Pieces that fit into a `Chunk_t` are pushed and counted. -/
theorem pushed_of_fit {pieces : List Bytes} (hfit : ∀ piece ∈ pieces, piece.length ≤ maxChunkSize)
    (s : ChunkingState) :
    ∃ chunks : List Chunk, chunks.map (·.val) = pieces ∧
      pieces.foldlM pushPiece s = .ok {
        fileSize := s.fileSize + UInt64.ofNat pieces.flatten.length
        chunkIDCnt := s.chunkIDCnt + UInt64.ofNat pieces.length
        pushed := s.pushed ++ chunks } := by
  induction pieces generalizing s with
  | nil => exact ⟨[], rfl, by simp; rfl⟩
  | cons piece rest ih =>
      have hlen := hfit piece List.mem_cons_self
      have hpush : pushPiece s piece = .ok {
          fileSize := s.fileSize + UInt64.ofNat piece.length
          chunkIDCnt := s.chunkIDCnt + 1
          pushed := s.pushed ++ [⟨piece, hlen⟩] } := by
        unfold pushPiece pushChunk
        simp only [dif_pos hlen, List.take_length]
      obtain ⟨chunks, hchunks, hrun⟩ := ih (fun p hp => hfit p (List.mem_cons_of_mem _ hp)) _
      refine ⟨⟨piece, hlen⟩ :: chunks, by rw [List.map_cons, hchunks], ?_⟩
      rw [Loops.foldlM_cons_ok hpush, hrun]
      simp [UInt64.ofNat_add, UInt64.add_assoc, UInt64.add_comm]

/-- A piece that does not fit is written behind the end of a `Chunk_t`. -/
theorem pushed_of_long {pieces : List Bytes} (hlong : ∃ piece ∈ pieces, maxChunkSize < piece.length)
    (s : ChunkingState) : pieces.foldlM pushPiece s = .error .outOfRange := by
  induction pieces generalizing s with
  | nil => simp at hlong
  | cons piece rest ih =>
      rw [List.foldlM_cons]
      by_cases hlen : piece.length ≤ maxChunkSize
      · have hrest : ∃ p ∈ rest, maxChunkSize < p.length := by
          obtain ⟨p, hp, hlt⟩ := hlong
          rcases List.mem_cons.mp hp with rfl | hp
          · exact absurd hlen (Nat.not_le.mpr hlt)
          · exact ⟨p, hp, hlt⟩
        unfold pushPiece pushChunk
        rw [dif_pos hlen]
        exact ih hrest _
      · unfold pushPiece pushChunk
        rw [dif_neg hlen]
        rfl

/-- A run of `FastCDC` pushes the pieces of the file. -/
theorem fastCDC_eq (h : c.Valid) {file : Bytes} {pieces : List Bytes}
    (hcuts : Cuts c.cut file pieces) {fuel : Nat} (hfuel : file.length + 1 < fuel) :
    fastCDC c fuel file =
      some ((pieces.foldlM pushPiece { fileSize := 0, chunkIDCnt := 0, pushed := [] }).map
        finishChunking) := by
  unfold fastCDC InStream.opened
  rw [chunkFile_spec h file fuel 0 pieces (Nat.zero_le _) hfuel hcuts]
  rfl

/-- What a file is cut into: the greedy chunks, which make up the file and have the sizes that
are configured. -/
structure Chunking (c : ChunkerConfig) (file : Bytes) (pieces : List Bytes) : Prop where
  greedy : Cuts c.cut file pieces
  unique : ∀ pieces', Cuts c.cut file pieces' → pieces' = pieces
  flatten : pieces.flatten = file
  sizes : ∀ pre piece post, pieces = pre ++ piece :: post →
    0 < piece.length ∧ piece.length ≤ c.maxChunkSize ∧ (post ≠ [] → c.minChunkSize ≤ piece.length)
  fit : c.maxChunkSize ≤ maxChunkSize → ∀ piece ∈ pieces, piece.length ≤ maxChunkSize
  counted : file.length < 2 ^ 64 → (UInt64.ofNat file.length).toNat = file.length ∧
    (UInt64.ofNat pieces.length).toNat = pieces.length

theorem exists_chunking (h : c.Valid) (file : Bytes) : ∃ pieces, Chunking c file pieces := by
  obtain ⟨pieces, hcuts⟩ := (cut_rule h).exists_cuts file
  refine ⟨pieces, hcuts, fun _ hcuts' => hcuts'.unique hcuts, hcuts.flatten,
    fun _ _ _ hsplit => hcuts.sizes (cut_rule h) hsplit, ?_, ?_⟩
  · intro hmax piece hpiece
    obtain ⟨pre, post, hsplit⟩ := List.append_of_mem hpiece
    exact (hcuts.sizes (cut_rule h) hsplit).2.1.trans hmax
  · intro hfile
    have hle := hcuts.length_le (cut_rule h)
    exact ⟨UInt64.toNat_ofNat_of_lt' hfile, UInt64.toNat_ofNat_of_lt' (hle.trans_lt hfile)⟩

/-- **FastCDC.**  Whatever the size of the window, `FastCDC` ends.  It pushes the greedy chunks
of the file and a recipe head that counts them, if they all fit into a `Chunk_t`, and writes
out of bounds if one does not. -/
theorem fastCDC_greedy (c : ChunkerConfig) (h : c.Valid) (file : Bytes) :
    ∃ pieces, Chunking c file pieces ∧
      ((∀ piece ∈ pieces, piece.length ≤ maxChunkSize) →
        ∃ chunks : List Chunk, chunks.map (·.val) = pieces ∧
          ∀ fuel, file.length + 1 < fuel → fastCDC c fuel file = some (.ok (
            chunks.map .chunk ++ [.recipeEnd {
              fileSize := UInt64.ofNat file.length
              totalChunkNum := UInt64.ofNat pieces.length }]))) ∧
      ((∃ piece ∈ pieces, maxChunkSize < piece.length) →
        ∀ fuel, file.length + 1 < fuel → fastCDC c fuel file = some (.error .outOfRange)) := by
  obtain ⟨pieces, hchunking⟩ := exists_chunking h file
  refine ⟨pieces, hchunking, ?_, ?_⟩
  · intro hfit
    obtain ⟨chunks, hchunks, hrun⟩ :=
      pushed_of_fit hfit { fileSize := 0, chunkIDCnt := 0, pushed := [] }
    refine ⟨chunks, hchunks, fun fuel hfuel => ?_⟩
    rw [fastCDC_eq h hchunking.greedy hfuel, hrun, hchunking.flatten]
    simp [Except.map, finishChunking]
  · intro hlong fuel hfuel
    rw [fastCDC_eq h hchunking.greedy hfuel, pushed_of_long hlong]
    rfl

/-- The sizes of the repository's configuration. -/
def defaultChunker : ChunkerConfig where
  minChunkSize := 4096
  avgChunkSize := 8192
  maxChunkSize := 16384
  readSize := 2 ^ 27
  bits := 13
  gear := fun b => b.toUInt32 * 0x9e3779b1

theorem defaultChunker_valid : defaultChunker.Valid :=
  ⟨by decide, by decide, by decide, by decide⟩

theorem fastCDC_greedy_default : defaultChunker.Valid ∧
    ∃ pieces, Chunking defaultChunker [1, 2, 3] pieces ∧
      ((∀ piece ∈ pieces, piece.length ≤ maxChunkSize) →
        ∃ chunks : List Chunk, chunks.map (·.val) = pieces ∧
          ∀ fuel, 4 < fuel → fastCDC defaultChunker fuel [1, 2, 3] = some (.ok (
            chunks.map .chunk ++ [.recipeEnd {
              fileSize := 3
              totalChunkNum := UInt64.ofNat pieces.length }]))) ∧
      ((∃ piece ∈ pieces, maxChunkSize < piece.length) →
        ∀ fuel, 4 < fuel → fastCDC defaultChunker fuel [1, 2, 3] = some (.error .outOfRange)) :=
  ⟨defaultChunker_valid, fastCDC_greedy defaultChunker defaultChunker_valid [1, 2, 3]⟩

/-! ## Chunks that are too large -/

/-- A file that is not longer than the smallest chunk is one chunk. -/
theorem cuts_of_short (h : c.Valid) {file : Bytes} (hne : file ≠ [])
    (hshort : file.length ≤ c.minChunkSize) : Cuts c.cut file [file] := by
  obtain ⟨hlo, hhi, -⟩ := cutPoint_bounds h (Nat.le_refl file.length)
  have hcut : c.cut file = file.length := by
    unfold ChunkerConfig.cut
    omega
  have hcuts : Cuts c.cut file [file.take (c.cut file)] := by
    refine .cons hne ?_
    rw [hcut, List.drop_length]
    exact .nil
  rwa [hcut, List.take_length] at hcuts

/-- Sizes that `ChunkerInit` accepts, for chunks that are larger than a `Chunk_t`. -/
def largeChunker : ChunkerConfig :=
  { defaultChunker with minChunkSize := 16385, avgChunkSize := 16386, maxChunkSize := 16387 }

theorem largeChunker_valid : largeChunker.Valid :=
  ⟨by decide, by decide, by decide, by decide⟩

/-- **Too large.**  With these sizes a file of 16385 bytes is one chunk of 16385 bytes, which
has no room in a `Chunk_t`. -/
theorem large_chunk_not_pushed : largeChunker.Valid ∧
    Cuts largeChunker.cut (List.replicate 16385 0) [List.replicate 16385 0] ∧
    ∀ fuel, 16386 < fuel →
      fastCDC largeChunker fuel (List.replicate 16385 0) = some (.error .outOfRange) := by
  have hlen : (List.replicate 16385 (0 : UInt8)).length = 16385 := List.length_replicate
  have hne : List.replicate 16385 (0 : UInt8) ≠ [] := by
    rw [← List.length_pos_iff, hlen]
    decide
  have hcuts := cuts_of_short largeChunker_valid hne (by rw [hlen]; decide)
  refine ⟨largeChunker_valid, hcuts, fun fuel hfuel => ?_⟩
  rw [fastCDC_eq largeChunker_valid hcuts (by rw [hlen]; exact hfuel),
    pushed_of_long ⟨_, List.mem_singleton_self _, by rw [hlen]; decide⟩]
  rfl

end Debe
