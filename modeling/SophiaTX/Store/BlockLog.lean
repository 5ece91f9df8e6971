import Mathlib.Data.List.Induction
import SophiaTX.Chain.Genesis
import SophiaTX.Lib.Journal
import SophiaTX.Protocol.Operations

/-!
# The block log

The file of the irreversible blocks, each followed by its position, and the index file with the
positions alone. Between writing and reading a stream is closed and opened again: a write stands at
the end of the file, and a read sees everything that was written.
-/

namespace SophiaTX.Chain

open SophiaTX.Protocol SophiaTX.Lib

inductive LogError where
  /-- A stream with `failbit` or `badbit`. -/
  | stream
  | unpack
  | assertion (message : String)
deriving DecidableEq

abbrev LogExec := Except LogError

/-- `fc::raw::pack` and `fc::raw::unpack` of a block; the latter with the bytes it took. -/
structure BlockCodec where
  pack : SignedBlock → Bytes
  unpack : Bytes → Option (SignedBlock × ℕ)

/-- Unpacking undoes packing for this block, whatever follows in the stream. -/
def BlockCodec.Undoes (codec : BlockCodec) (b : SignedBlock) : Prop :=
  ∀ rest, codec.unpack (codec.pack b ++ rest) = some (b, (codec.pack b).length)

/-- `block_log_impl`, with what its two files hold. -/
structure BlockLog where
  blockFile : Bytes
  indexFile : Bytes
  head : Option SignedBlock
  headId : BlockId
deriving DecidableEq

/-! ## Streams -/

/-- The largest offset in a file, a signed 64-bit number. -/
def maxFileSize : ℕ := 9223372036854775807

def writeTo (file data : Bytes) : LogExec Bytes :=
  if file.length + data.length ≤ maxFileSize then .ok (file ++ data) else .error .stream

/-- Reads a `uint64_t` where the stream stands. -/
def readWord (stream : Bytes) : LogExec ℕ :=
  if stream.length < 8 then .error .stream else .ok (ofWord (stream.take 8))

/-- `seekg( -sizeof( uint64_t ), std::ios::end )` and `read`. -/
def lastWord (file : Bytes) : LogExec ℕ :=
  if file.length < 8 then .error .stream else readWord (file.drop (file.length - 8))

namespace BlockLog

variable (env : Env) (codec : BlockCodec)

/-- `block_log::npos`. -/
def npos : ℕ := 18446744073709551615

/-! ## Reading -/

def readBlockHelper (log : BlockLog) (pos : ℕ) : LogExec (SignedBlock × ℕ) :=
  match codec.unpack (log.blockFile.drop pos) with
  | none => .error .unpack
  | some (b, size) => .ok (b, pos + size + 8)

def readHead (log : BlockLog) : LogExec SignedBlock := do
  let pos ← lastWord log.blockFile
  let (b, _) ← log.readBlockHelper codec pos
  pure b

def getBlockPosHelper (log : BlockLog) (blockNum : ℕ) : LogExec ℕ :=
  if log.head.isSome ∧ blockNum ≤ log.headId.num ∧ 0 < blockNum then
    readWord (log.indexFile.drop (8 * (blockNum - 1)))
  else .ok npos

def readBlockByNum (log : BlockLog) (blockNum : ℕ) : LogExec (Option SignedBlock) := do
  let pos ← log.getBlockPosHelper blockNum
  if pos ≠ npos then do
    let (b, _) ← log.readBlockHelper codec pos
    if b.blockNum = blockNum then pure (some b)
    else .error (.assertion "Wrong block was read from block log.")
  else pure none

/-! ## Writing -/

/-- `append`, with the position it returns. -/
def append (log : BlockLog) (b : SignedBlock) : LogExec (ℕ × BlockLog) :=
  if log.indexFile.length = 8 * (b.blockNum - 1) then do
    let pos := log.blockFile.length
    let blockFile ← writeTo log.blockFile (codec.pack b)
    let blockFile ← writeTo blockFile (word 8 pos)
    let indexFile ← writeTo log.indexFile (word 8 pos)
    pure (pos, ⟨blockFile, indexFile, some b, env.blockId b⟩)
  else .error (.assertion "Append to index file occuring at wrong position.")

/-- The loop of `construct_index`, from where the stream of the blocks stands. -/
def constructIndexLoop (endPos pos : ℕ) (stream indexFile : Bytes) : LogExec Bytes :=
  if pos < endPos then
    match codec.unpack stream with
    | none => .error .unpack
    | some (_, size) =>
      if (stream.drop size).length < 8 then .error .stream
      else do
        let pos := ofWord ((stream.drop size).take 8)
        let indexFile ← writeTo indexFile (word 8 pos)
        constructIndexLoop endPos pos ((stream.drop size).drop 8) indexFile
  else .ok indexFile
termination_by stream.length
decreasing_by
  simp only [List.length_drop] at *
  omega

def constructIndex (log : BlockLog) : LogExec BlockLog := do
  let endPos ← lastWord log.blockFile
  let indexFile ← constructIndexLoop codec endPos 0 log.blockFile []
  pure { log with indexFile := indexFile }

/-- `open` on the files found on the disk; the ones that are missing are created. -/
def openFiles (blockFile indexFile : Option Bytes) : LogExec BlockLog :=
  let log : BlockLog := ⟨blockFile.getD [], indexFile.getD [], none, BlockId.null⟩
  if log.blockFile ≠ [] then do
    let head ← log.readHead codec
    let log := { log with head := some head, headId := env.blockId head }
    if log.indexFile ≠ [] then do
      let blockPos ← lastWord log.blockFile
      let indexPos ← lastWord log.indexFile
      if blockPos < indexPos then log.constructIndex codec
      else if indexPos < blockPos then log.constructIndex codec
      else pure log
    else log.constructIndex codec
  else if log.indexFile ≠ [] then pure { log with indexFile := [] }
  else pure log

/-- The blocks appended one after the other. -/
def appendAll (log : BlockLog) (blocks : List SignedBlock) : LogExec BlockLog :=
  blocks.foldlM (fun log b ↦ do
    let (_, log) ← log.append env codec b
    pure log) log

/-- A new log with these blocks. -/
def newLog (blocks : List SignedBlock) : LogExec BlockLog := do
  let log ← openFiles env codec none none
  log.appendAll env codec blocks

/-! ## The log of a list of blocks -/

/-- What a log to which these blocks were appended consists of. -/
def ofBlocks (blocks : List SignedBlock) : BlockLog where
  blockFile := journal codec.pack blocks
  indexFile := wordArray 8 (positions codec.pack blocks)
  head := blocks.getLast?
  headId := (blocks.getLast?.map env.blockId).getD BlockId.null

/-- The blocks are numbered from one on and fit into a file. -/
structure Storable (blocks : List SignedBlock) : Prop where
  numbered : blocks.map SignedBlock.blockNum = List.range' 1 blocks.length
  fits : (journal codec.pack blocks).length ≤ maxFileSize

variable {env codec} {blocks : List SignedBlock} {b : SignedBlock} {log : BlockLog}

theorem writeTo_eq_ok {file data file' : Bytes} :
    writeTo file data = .ok file' ↔
      file.length + data.length ≤ maxFileSize ∧ file ++ data = file' := by
  unfold writeTo
  split <;> simp_all

theorem openFiles_nothing : openFiles env codec none none = .ok (ofBlocks env codec []) := rfl

theorem storable_nil : Storable codec [] where
  numbered := rfl
  fits := Nat.zero_le _

theorem length_journal_concat (codec : BlockCodec) (blocks : List SignedBlock) (b : SignedBlock) :
    (journal codec.pack (blocks ++ [b])).length =
      (journal codec.pack blocks).length + (codec.pack b).length + 8 := by
  rw [journal_concat, List.length_append, length_frame, Nat.add_assoc]

theorem ofBlocks_concat (blocks : List SignedBlock) (b : SignedBlock) :
    ofBlocks env codec (blocks ++ [b]) =
      ⟨journal codec.pack blocks ++ codec.pack b ++ word 8 (journal codec.pack blocks).length,
        wordArray 8 (positions codec.pack blocks) ++ word 8 (journal codec.pack blocks).length,
        some b, env.blockId b⟩ := by
  rw [ofBlocks, List.getLast?_concat, journal_concat, positions_concat, wordArray_append,
    wordArray_singleton, frame, List.append_assoc]
  rfl

/-- An append succeeds exactly for the block that comes next, while the file has room. -/
theorem append_ofBlocks {r : ℕ × BlockLog} :
    (ofBlocks env codec blocks).append env codec b = .ok r ↔
      (b.blockNum = blocks.length + 1 ∧
        (journal codec.pack (blocks ++ [b])).length ≤ maxFileSize) ∧
        ((journal codec.pack blocks).length, ofBlocks env codec (blocks ++ [b])) = r := by
  have hnum : (ofBlocks env codec blocks).indexFile.length = 8 * (b.blockNum - 1) ↔
      b.blockNum = blocks.length + 1 := by
    rw [ofBlocks, length_wordArray, length_positions, SignedBlock.blockNum]
    omega
  have hindex := length_wordArray_positions_le codec.pack blocks
  rw [append]
  by_cases h : b.blockNum = blocks.length + 1
  · rw [if_pos (hnum.2 h), ofBlocks_concat, length_journal_concat]
    simp only [bind_eq_ok, writeTo_eq_ok, pure_eq_ok, ofBlocks]
    constructor
    · rintro ⟨_, ⟨_, rfl⟩, _, ⟨hfits, rfl⟩, _, ⟨_, rfl⟩, hr⟩
      rw [List.length_append, length_word] at hfits
      exact ⟨⟨h, hfits⟩, hr⟩
    · rintro ⟨⟨_, hfits⟩, hr⟩
      have hpack : (journal codec.pack blocks ++ codec.pack b).length + 8 ≤ maxFileSize := by
        rw [List.length_append]
        exact hfits
      have hword : (wordArray 8 (positions codec.pack blocks)).length + 8 ≤ maxFileSize := by omega
      refine ⟨_, ⟨by omega, rfl⟩, _, ⟨?_, rfl⟩, _, ⟨?_, rfl⟩, hr⟩
      · rwa [length_word]
      · rwa [length_word]
  · rw [if_neg (mt hnum.1 h)]
    simp [h]

theorem storable_concat :
    Storable codec (blocks ++ [b]) ↔
      Storable codec blocks ∧ b.blockNum = blocks.length + 1 ∧
        (journal codec.pack (blocks ++ [b])).length ≤ maxFileSize := by
  have hnumbers : List.range' 1 (blocks ++ [b]).length =
      List.range' 1 blocks.length ++ [blocks.length + 1] := by
    rw [List.length_append, List.length_singleton, List.range'_concat, Nat.one_mul, Nat.add_comm 1]
  constructor
  · intro h
    have hnumbered := h.numbered
    rw [hnumbers, List.map_append] at hnumbered
    obtain ⟨hblocks, hlast⟩ := List.append_inj' hnumbered rfl
    have hroom := length_journal_concat codec blocks b
    have hfits := h.fits
    exact ⟨⟨hblocks, by omega⟩, List.singleton_inj.1 hlast, hfits⟩
  · rintro ⟨h, hnum, hfits⟩
    refine ⟨?_, hfits⟩
    rw [hnumbers, List.map_append, h.numbered, List.map_singleton, hnum]

/-- Appending blocks to an empty log succeeds exactly when they are numbered and fit. -/
theorem newLog_eq_ok :
    newLog env codec blocks = .ok log ↔
      Storable codec blocks ∧ ofBlocks env codec blocks = log := by
  rw [newLog, openFiles_nothing, ok_bind]
  induction blocks using List.reverseRecOn generalizing log with
  | nil =>
    rw [appendAll, List.foldlM_nil, pure_eq_ok]
    exact (and_iff_right storable_nil).symm
  | append_singleton blocks b ih =>
    rw [storable_concat, appendAll, List.foldlM_append, bind_eq_ok]
    simp only [List.foldlM_cons, List.foldlM_nil, bind_pure, bind_eq_ok, pure_eq_ok]
    constructor
    · rintro ⟨_, hprefix, _, happend, rfl⟩
      obtain ⟨hstorable, rfl⟩ := ih.1 hprefix
      obtain ⟨hb, rfl⟩ := append_ofBlocks.1 happend
      exact ⟨⟨hstorable, hb⟩, rfl⟩
    · rintro ⟨⟨hstorable, hb⟩, rfl⟩
      exact ⟨_, ih.2 ⟨hstorable, rfl⟩, _, append_ofBlocks.2 ⟨hb, rfl⟩, rfl⟩

/-! ## Reading back -/

theorem readWord_append {n : ℕ} (hn : n ≤ maxFileSize) (rest : Bytes) :
    readWord (word 8 n ++ rest) = .ok n := by
  have hsmall : n < 256 ^ 8 := lt_of_le_of_lt hn (by decide)
  have hlength : ¬ (word 8 n ++ rest).length < 8 := by
    rw [List.length_append, length_word]
    omega
  rw [readWord, if_neg hlength, List.take_left' (length_word 8 n), ofWord_word hsmall]

/-- The last word of the file is the position of the last block. -/
theorem lastWord_journal (h : Storable codec (blocks ++ [b])) :
    lastWord (journal codec.pack (blocks ++ [b])) = .ok (journal codec.pack blocks).length := by
  have hroom := length_journal_concat codec blocks b
  have hfits := h.fits
  have hword := readWord_append (n := (journal codec.pack blocks).length) (by omega) []
  rw [List.append_nil] at hword
  rw [lastWord, if_neg (by omega), drop_journal_concat, hword]

/-- At the position of a block the file holds this block. -/
theorem readBlockHelper_eq {front back : List SignedBlock} (hb : codec.Undoes b)
    (hfile : log.blockFile = journal codec.pack (front ++ b :: back)) :
    log.readBlockHelper codec (journal codec.pack front).length
      = .ok (b, (journal codec.pack front).length + (codec.pack b).length + 8) := by
  rw [readBlockHelper, hfile, drop_journal, journalFrom, frame, List.append_assoc, hb]

theorem readHead_eq (h : Storable codec (blocks ++ [b])) (hb : codec.Undoes b)
    (hfile : log.blockFile = journal codec.pack (blocks ++ [b])) : log.readHead codec = .ok b := by
  rw [readHead, hfile, lastWord_journal h, ok_bind, readBlockHelper_eq hb hfile]
  rfl

theorem headId_num (env : Env) (h : Storable codec blocks) :
    (ofBlocks env codec blocks).headId.num = blocks.length := by
  cases blocks using List.reverseRecOn with
  | nil => rfl
  | append_singleton blocks b =>
    rw [ofBlocks_concat, List.length_append, List.length_singleton]
    exact (storable_concat.1 h).2.1

theorem isSome_head (hpos : 0 < blocks.length) : (ofBlocks env codec blocks).head.isSome := by
  have hne : blocks ≠ [] := List.ne_nil_of_length_pos hpos
  rw [ofBlocks, List.getLast?_eq_some_getLast hne]
  rfl

theorem readWord_indexFile (front back : List SignedBlock)
    (h : Storable codec (front ++ b :: back)) :
    readWord ((ofBlocks env codec (front ++ b :: back)).indexFile.drop (8 * front.length)) =
      .ok (journal codec.pack front).length := by
  have hroom := length_journal_lt codec.pack front back b
  have hfits := h.fits
  have hindex := drop_wordArray 8 (positions codec.pack front)
    (positionsFrom codec.pack ((journal codec.pack front).length +
      (frame codec.pack (journal codec.pack front).length b).length) back)
    (journal codec.pack front).length
  rw [length_positions, ← positions_split] at hindex
  calc readWord ((ofBlocks env codec (front ++ b :: back)).indexFile.drop (8 * front.length))
      = readWord (word 8 (journal codec.pack front).length ++ _) := congrArg readWord hindex
    _ = .ok (journal codec.pack front).length := readWord_append (by omega) _

theorem getBlockPosHelper_eq (front back : List SignedBlock)
    (h : Storable codec (front ++ b :: back)) :
    (ofBlocks env codec (front ++ b :: back)).getBlockPosHelper (front.length + 1) =
      .ok (journal codec.pack front).length := by
  have hlength : (front ++ b :: back).length = front.length + back.length + 1 := by
    rw [List.length_append, List.length_cons, Nat.add_assoc]
  have hnum := headId_num env h
  rw [getBlockPosHelper, if_pos ⟨isSome_head (by omega), by omega, by omega⟩, Nat.add_sub_cancel]
  exact readWord_indexFile front back h

theorem getBlockPosHelper_eq_npos (h : Storable codec blocks) {k : ℕ}
    (hk : k = 0 ∨ blocks.length < k) :
    (ofBlocks env codec blocks).getBlockPosHelper k = .ok npos := by
  have hnum := headId_num env h
  rw [getBlockPosHelper, if_neg (by omega)]

theorem Storable.blockNum {front back : List SignedBlock}
    (h : Storable codec (front ++ b :: back)) : b.blockNum = front.length + 1 := by
  have hnumbered := congrArg (fun l ↦ l[front.length]?) h.numbered
  simp only [List.map_append, List.map_cons, List.length_append, List.length_cons] at hnumbered
  rw [List.getElem?_append_right (by simp), List.length_map, Nat.sub_self, List.getElem?_cons_zero,
    List.getElem?_range' (by omega)] at hnumbered
  have := Option.some.inj hnumbered
  omega

/-- `read_block_by_num` gives the blocks in order, and nothing for any other number. -/
theorem readBlockByNum_ofBlocks (h : Storable codec blocks) (hcodec : ∀ b ∈ blocks, codec.Undoes b)
    (k : ℕ) :
    (ofBlocks env codec blocks).readBlockByNum codec k =
      .ok (if k = 0 then none else blocks[k - 1]?) := by
  by_cases hk : k = 0 ∨ blocks.length < k
  · have hnone : (if k = 0 then none else blocks[k - 1]?) = none := by
      split
      · rfl
      · exact List.getElem?_eq_none (by omega)
    rw [readBlockByNum, getBlockPosHelper_eq_npos h hk, hnone]
    rfl
  · obtain ⟨i, rfl⟩ : ∃ i, k = i + 1 := ⟨k - 1, by omega⟩
    obtain ⟨front, back, hlength, hsplit⟩ : ∃ front back, front.length = i ∧
        blocks = front ++ blocks[i] :: back :=
      ⟨blocks.take i, blocks.drop (i + 1), by rw [List.length_take]; omega, by simp⟩
    generalize blocks[i] = b at hsplit
    subst hsplit hlength
    have hb : codec.Undoes b := hcodec b (List.mem_append_right _ List.mem_cons_self)
    have hpos : (journal codec.pack front).length ≠ npos := by
      have hroom := length_journal_lt codec.pack front back b
      have hfits := h.fits
      rw [maxFileSize] at hfits
      rw [npos]
      omega
    rw [readBlockByNum, getBlockPosHelper_eq front back h, ok_bind, if_pos hpos,
      readBlockHelper_eq hb rfl, ok_bind]
    dsimp only
    rw [if_pos h.blockNum, if_neg (Nat.succ_ne_zero _), Nat.add_sub_cancel,
      List.getElem?_append_right le_rfl, Nat.sub_self, List.getElem?_cons_zero]
    rfl

/-! ## Opening again -/

/-- One round of the loop: a block and its position leave the stream. -/
theorem constructIndexLoop_step {back : List SignedBlock} {endPos pos p : ℕ} {indexFile : Bytes}
    (hpos : pos < endPos) (hb : codec.Undoes b) (hp : p ≤ maxFileSize)
    (hroom : indexFile.length + 8 ≤ maxFileSize) :
    constructIndexLoop codec endPos pos (journalFrom codec.pack p (b :: back)) indexFile =
      constructIndexLoop codec endPos p
        (journalFrom codec.pack (p + (frame codec.pack p b).length) back)
        (indexFile ++ word 8 p) := by
  generalize hstream : journalFrom codec.pack (p + (frame codec.pack p b).length) back = stream
  have hjournal : journalFrom codec.pack p (b :: back) = codec.pack b ++ (word 8 p ++ stream) := by
    rw [journalFrom, hstream, frame, List.append_assoc]
  have hlength : ¬ (word 8 p ++ stream).length < 8 := by
    rw [List.length_append, length_word]
    omega
  have hword : readWord (word 8 p ++ stream) = .ok p := readWord_append hp stream
  rw [readWord, if_neg hlength] at hword
  have hwrite : writeTo indexFile (word 8 p) = .ok (indexFile ++ word 8 p) := by
    rw [writeTo_eq_ok, length_word]
    exact ⟨hroom, rfl⟩
  rw [constructIndexLoop, if_pos hpos, hjournal, hb]
  dsimp only
  rw [List.drop_left, if_neg hlength, Except.ok.inj hword, hwrite, ok_bind,
    List.drop_left' (length_word 8 p)]

/-- The loop writes the positions of all the blocks up to the one it is to end at. -/
theorem constructIndexLoop_eq {back : List SignedBlock} {endPos pos p : ℕ} {indexFile : Bytes}
    (hcodec : ∀ c ∈ b :: back, codec.Undoes c) (hpos : pos < endPos)
    (hend : (positionsFrom codec.pack p (b :: back)).getLast? = some endPos)
    (hfits : p + (journalFrom codec.pack p (b :: back)).length ≤ maxFileSize)
    (hroom : indexFile.length ≤ p) :
    constructIndexLoop codec endPos pos (journalFrom codec.pack p (b :: back)) indexFile =
      .ok (indexFile ++ wordArray 8 (positionsFrom codec.pack p (b :: back))) := by
  induction back generalizing b pos p indexFile with
  | nil =>
    have hlast : p = endPos := Option.some.inj hend
    have hframe := length_frame codec.pack p b
    rw [journalFrom, List.length_append] at hfits
    rw [constructIndexLoop_step hpos (hcodec b List.mem_cons_self) (by omega) (by omega),
      journalFrom, constructIndexLoop, if_neg (by omega), positionsFrom, positionsFrom,
      wordArray_singleton]
  | cons c back ih =>
    have hframe := length_frame codec.pack p b
    have hrest : (positionsFrom codec.pack (p + (frame codec.pack p b).length) (c :: back)).getLast?
        = some endPos := by
      rwa [positionsFrom, positionsFrom, List.getLast?_cons_cons, ← positionsFrom] at hend
    have hnext := le_of_mem_positionsFrom codec.pack (List.mem_of_getLast? hrest)
    rw [journalFrom, List.length_append] at hfits
    rw [constructIndexLoop_step hpos (hcodec b List.mem_cons_self) (by omega) (by omega),
      ih (fun d hd ↦ hcodec d (List.mem_cons_of_mem b hd)) (by omega) hrest (by omega)
        (by rw [List.length_append, length_word]; omega),
      positionsFrom, List.append_assoc]
    rfl

theorem positions_getLast (blocks : List SignedBlock) (b : SignedBlock) :
    (positions codec.pack (blocks ++ [b])).getLast? = some (journal codec.pack blocks).length := by
  rw [positions_concat, List.getLast?_concat]

/-- `construct_index` on a log of at least two blocks. -/
theorem constructIndex_eq (hcodec : ∀ c ∈ blocks ++ [b], codec.Undoes c)
    (h : Storable codec (blocks ++ [b])) (hne : blocks ≠ [])
    (hfile : log.blockFile = journal codec.pack (blocks ++ [b])) :
    log.constructIndex codec =
      .ok { log with indexFile := wordArray 8 (positions codec.pack (blocks ++ [b])) } := by
  obtain ⟨first, rest, rfl⟩ := List.exists_cons_of_ne_nil hne
  have hpos : 0 < (journal codec.pack (first :: rest)).length := by
    have hlength := length_le_journalFrom codec.pack 0 (first :: rest)
    rw [List.length_cons] at hlength
    rw [journal]
    omega
  have hloop : constructIndexLoop codec (journal codec.pack (first :: rest)).length 0
        (journal codec.pack (first :: rest ++ [b])) [] =
      .ok (wordArray 8 (positions codec.pack (first :: rest ++ [b]))) :=
    constructIndexLoop_eq hcodec hpos (positions_getLast (first :: rest) b)
      (by rw [Nat.zero_add]; exact h.fits) (Nat.zero_le 0)
  rw [constructIndex, hfile, lastWord_journal h, ok_bind, hloop]
  rfl

/-- Of a single block `construct_index` writes nothing: the loop ends where it starts. -/
theorem constructIndex_singleton (h : Storable codec ([] ++ [b]))
    (hfile : log.blockFile = journal codec.pack ([] ++ [b])) :
    log.constructIndex codec = .ok { log with indexFile := [] } := by
  have hend : ¬ 0 < (journal codec.pack []).length := Nat.lt_irrefl 0
  rw [constructIndex, hfile, lastWord_journal h, ok_bind, constructIndexLoop, if_neg hend]
  rfl

/-- The states of the index file in which it does not end at the position of the last block: it is
missing, empty, or ends at an earlier or a later position. -/
def StaleIndex (blockFile : Bytes) : Option Bytes → Prop
  | none => True
  | some indexFile => indexFile = [] ∨ ∃ blockPos indexPos,
      lastWord blockFile = .ok blockPos ∧ lastWord indexFile = .ok indexPos ∧
        (indexPos < blockPos ∨ blockPos < indexPos)

theorem openFiles_stale (env : Env) (indexFile : Option Bytes)
    (h : Storable codec (blocks ++ [b])) (hb : codec.Undoes b)
    (hstale : StaleIndex (journal codec.pack (blocks ++ [b])) indexFile) :
    openFiles env codec (some (journal codec.pack (blocks ++ [b]))) indexFile =
      (BlockLog.mk (journal codec.pack (blocks ++ [b])) (indexFile.getD []) (some b)
        (env.blockId b)).constructIndex codec := by
  have hne : journal codec.pack (blocks ++ [b]) ≠ [] := by
    intro hempty
    have hroom := length_journal_concat codec blocks b
    rw [hempty] at hroom
    cases hroom
  rw [openFiles]
  dsimp only [Option.getD_some]
  rw [if_pos hne, readHead_eq h hb rfl, ok_bind]
  by_cases hindex : indexFile.getD [] = []
  · rw [if_neg (not_not.2 hindex)]
  · cases indexFile with
    | none => exact absurd rfl hindex
    | some indexFile =>
      obtain hempty | ⟨blockPos, indexPos, hblock, hpos, hdiffer⟩ := hstale
      · exact absurd hempty hindex
      · dsimp only [Option.getD_some] at hindex ⊢
        rw [if_pos hindex, hblock, ok_bind, hpos, ok_bind]
        split
        · rfl
        · rw [if_pos (by omega)]

/-! ## What reopening restores -/

/-- The log gives back the blocks that were appended to it. -/
def ReadsBack (codec : BlockCodec) (log : BlockLog) (blocks : List SignedBlock) : Prop :=
  (∀ k, log.readBlockByNum codec k = .ok (if k = 0 then none else blocks[k - 1]?)) ∧
    log.head = blocks.getLast?

/-- Opened again with another index file, the log writes the index file anew, and the next block
can be appended while there is room. -/
def Reopens (env : Env) (codec : BlockCodec) (log : BlockLog) (indexFile : Option Bytes) : Prop :=
  ∃ log', openFiles env codec (some log.blockFile) indexFile = .ok log' ∧
    log'.indexFile = log.indexFile ∧
    ∀ b : SignedBlock, b.blockNum = log.headId.num + 1 →
      log.blockFile.length + (codec.pack b).length + 8 ≤ maxFileSize →
        ∃ r, log'.append env codec b = .ok r

theorem readsBack_ofBlocks (h : Storable codec blocks) (hcodec : ∀ b ∈ blocks, codec.Undoes b) :
    ReadsBack codec (ofBlocks env codec blocks) blocks :=
  ⟨readBlockByNum_ofBlocks h hcodec, rfl⟩

theorem reopens_of_two (env : Env) {indexFile : Option Bytes}
    (hcodec : ∀ c ∈ blocks ++ [b], codec.Undoes c) (h : Storable codec (blocks ++ [b]))
    (hne : blocks ≠ [])
    (hstale : StaleIndex (journal codec.pack (blocks ++ [b])) indexFile) :
    Reopens env codec (ofBlocks env codec (blocks ++ [b])) indexFile := by
  have hb : codec.Undoes b := hcodec b (List.mem_append_right _ List.mem_cons_self)
  have hopen : openFiles env codec (some (journal codec.pack (blocks ++ [b]))) indexFile =
      .ok (ofBlocks env codec (blocks ++ [b])) := by
    rw [openFiles_stale env indexFile h hb hstale, constructIndex_eq hcodec h hne rfl, ofBlocks,
      List.getLast?_concat]
    rfl
  refine ⟨_, hopen, rfl, fun c hnum hroom ↦ ?_⟩
  rw [headId_num env h] at hnum
  exact ⟨_, append_ofBlocks.2 ⟨⟨hnum, by rw [length_journal_concat]; exact hroom⟩, rfl⟩⟩

/-- The index file of a log of one block is left empty. -/
theorem not_reopens_singleton (env : Env) {indexFile : Option Bytes}
    (h : Storable codec ([] ++ [b])) (hb : codec.Undoes b)
    (hstale : StaleIndex (journal codec.pack ([] ++ [b])) indexFile) :
    ¬ Reopens env codec (ofBlocks env codec ([] ++ [b])) indexFile := by
  rintro ⟨log', hopen, hindex, _⟩
  have hopen' : openFiles env codec (some (journal codec.pack ([] ++ [b]))) indexFile = .ok log' :=
    hopen
  rw [openFiles_stale env indexFile h hb hstale, constructIndex_singleton h rfl] at hopen'
  have hlength := congrArg List.length hindex
  rw [← Except.ok.inj hopen', ofBlocks, length_wordArray, length_positions] at hlength
  cases hlength

/-- A log reads back what was appended to it, and restores its index file when it is opened again,
exactly when it does not hold a single block. -/
theorem log_restores_iff (hne : blocks ≠ []) (hcodec : ∀ b ∈ blocks, codec.Undoes b)
    (hlog : newLog env codec blocks = .ok log) {indexFile : Option Bytes}
    (hstale : StaleIndex log.blockFile indexFile) :
    ReadsBack codec log blocks ∧ Reopens env codec log indexFile ↔ blocks.length ≠ 1 := by
  obtain ⟨h, rfl⟩ := newLog_eq_ok.1 hlog
  cases blocks using List.reverseRecOn with
  | nil => exact absurd rfl hne
  | append_singleton blocks b =>
    cases blocks with
    | nil =>
      have hfails := not_reopens_singleton env h (hcodec b List.mem_cons_self) hstale
      exact iff_of_false (fun hboth ↦ hfails hboth.2) (fun hlength ↦ hlength rfl)
    | cons c blocks =>
      have hreopens := reopens_of_two env hcodec h (List.cons_ne_nil c blocks) hstale
      refine iff_of_true ⟨readsBack_ofBlocks h hcodec, hreopens⟩ ?_
      rw [List.length_append, List.length_cons, List.length_singleton]
      omega

/-! ## Blocks without transactions -/

/-- A codec of the blocks of a development network that hold no transactions: it packs the fields
in which they differ. -/
def devCodec : BlockCodec where
  pack b := word 4 b.previous.num ++ word 20 b.previous.hash ++ word 4 b.timestamp
  unpack stream :=
    if stream.length < 28 then none
    else some (devBlock ⟨ofWord (stream.take 4), ofWord ((stream.drop 4).take 20)⟩
      (ofWord (((stream.drop 4).drop 20).take 4)) [], 28)

theorem devCodec_undoes {num hash time : ℕ} (hnum : num < 256 ^ 4) (hhash : hash < 256 ^ 20)
    (htime : time < 256 ^ 4) : devCodec.Undoes (devBlock ⟨num, hash⟩ time []) := by
  intro rest
  have hpack : devCodec.pack (devBlock ⟨num, hash⟩ time []) ++ rest =
      word 4 num ++ (word 20 hash ++ (word 4 time ++ rest)) := by
    rw [← List.append_assoc, ← List.append_assoc]
    rfl
  have hsize : (devCodec.pack (devBlock ⟨num, hash⟩ time [])).length = 28 := by
    simp only [devCodec, List.length_append, length_word]
  rw [hpack, hsize]
  simp only [devCodec, List.length_append, length_word, List.take_left' (length_word 4 _),
    List.drop_left' (length_word 4 _), List.take_left' (length_word 20 _),
    List.drop_left' (length_word 20 _), ofWord_word hnum, ofWord_word hhash, ofWord_word htime]
  rw [if_neg (by omega)]

def firstBlock : SignedBlock := devBlock BlockId.null 1531512803 []

def secondBlock : SignedBlock := devBlock ⟨1, 1531512803007⟩ 1531512806 []

theorem devCodec_undoes_first : devCodec.Undoes firstBlock :=
  devCodec_undoes (by decide) (by decide) (by decide)

theorem devCodec_undoes_second : devCodec.Undoes secondBlock :=
  devCodec_undoes (by decide) (by decide) (by decide)

theorem log_restores_two_blocks :
    ∃ log, newLog devEnv devCodec [firstBlock, secondBlock] = .ok log ∧
      ReadsBack devCodec log [firstBlock, secondBlock] ∧ Reopens devEnv devCodec log none := by
  have hlog : newLog devEnv devCodec [firstBlock, secondBlock] =
      .ok (ofBlocks devEnv devCodec [firstBlock, secondBlock]) :=
    newLog_eq_ok.2 ⟨⟨rfl, by decide⟩, rfl⟩
  have hcodec : ∀ b ∈ [firstBlock, secondBlock], devCodec.Undoes b := by
    intro b hb
    rcases List.mem_pair.1 hb with rfl | rfl
    · exact devCodec_undoes_first
    · exact devCodec_undoes_second
  have hstale : StaleIndex (ofBlocks devEnv devCodec [firstBlock, secondBlock]).blockFile none :=
    trivial
  exact ⟨_, hlog, (log_restores_iff (by decide) hcodec hlog hstale).2 (by decide)⟩

/-- After the first block the index file is not restored, and the second cannot be appended. -/
theorem first_block_not_restored :
    ∃ log log', newLog devEnv devCodec [firstBlock] = .ok log ∧
      openFiles devEnv devCodec (some log.blockFile) none = .ok log' ∧
      log.indexFile = word 8 0 ∧ log'.indexFile = [] ∧
      (∃ r, log.append devEnv devCodec secondBlock = .ok r) ∧
      log'.append devEnv devCodec secondBlock =
        .error (.assertion "Append to index file occuring at wrong position.") := by
  have h : Storable devCodec ([] ++ [firstBlock]) := ⟨rfl, by decide⟩
  have hopen := openFiles_stale devEnv none h devCodec_undoes_first trivial
  rw [constructIndex_singleton h rfl] at hopen
  refine ⟨_, _, newLog_eq_ok.2 ⟨h, rfl⟩, hopen, rfl, rfl, ?_, rfl⟩
  exact ⟨_, append_ofBlocks.2 ⟨⟨rfl, by decide⟩, rfl⟩⟩

end BlockLog

end SophiaTX.Chain
