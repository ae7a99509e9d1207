import Nawam.Base.Bytes
import Nawam.Base.Memory
import Nawam.Base.System
import Mathlib.Data.List.Sort
import Mathlib.Logic.Function.Basic

/-!
# Looking for bad blocks

`test_rw` of `badblocks.c`: in each pass all blocks are written with a pattern,
in batches, and then read back and compared. Where a batch fails, its blocks
are tried one by one until the end of where the batch was to be. What was bad
goes to a sorted list, `bb_list`.

The test is a system: a step is one turn of a loop, and the drive answers as it
likes. Of the blocks of the current pass it is recorded what was written, what
was read back and what that was compared with (`PassRecords`); the code itself
does not see these records.
-/

namespace Nawam

/-! ## Source -/

/-! ### The list of bad blocks -/

def findLoop (list : List ℕ) (blk : ℕ) : ℕ → ℕ → ℕ → Option ℕ
  | 0, _, _ => none
  | fuel + 1, low, high =>
      if low < high then
        let mid := (low + high) / 2
        if mid = low ∨ mid = high then none
        else if blk = list.getD mid 0 then some mid
        else if blk < list.getD mid 0 then findLoop list blk fuel low mid
        else findLoop list blk fuel mid high
      else none

/-- `bb_u64_list_find`; `none` is -1. -/
def bbListFind (list : List ℕ) (blk : ℕ) : Option ℕ :=
  if list.length = 0 then none
  else
    let high := list.length - 1
    if blk = list.getD 0 0 then some 0
    else if blk = list.getD high 0 then some high
    else findLoop list blk list.length 0 high

def bbListTest (list : List ℕ) (blk : ℕ) : Bool := (bbListFind list blk).isSome

/-- The search for the place of `blk`; `none` where it is there already. -/
def placeLoop (blk : ℕ) : List ℕ → ℕ → Option ℕ
  | [], i => some i
  | b :: list, i =>
      if b = blk then none
      else if blk < b then some i
      else placeLoop blk list (i + 1)

def bbListAdd (list : List ℕ) (blk : ℕ) : List ℕ :=
  let last := list.getD (list.length - 1) 0
  if list.length ≠ 0 ∧ last = blk then list
  else if list.length = 0 ∨ last < blk then list ++ [blk]
  else
    match placeLoop blk list 0 with
    | none => list
    | some j => list.take j ++ blk :: list.drop j

/-! ### The pattern -/

/-- `bpattern`: the bytes of the pattern up to the highest one that counts. -/
def bpattern : ℕ → ℕ → List UInt8
  | 0, _ => []
  | fuel + 1, pattern =>
      if pattern = 0 then []
      else .ofNat (pattern % 256) :: bpattern fuel (pattern / 256)

def fillLoop (bytes : List UInt8) (nb : ℕ) : ℕ → ℕ → List UInt8
  | 0, _ => []
  | n + 1, i =>
      bytes.getD i 0 :: fillLoop bytes nb n (if i = 0 then nb else i - 1)

def patternFill (pattern n : ℕ) : List UInt8 :=
  let bytes := bpattern 4 pattern
  fillLoop bytes (bytes.length - 1) n (bytes.length - 1)

def badblockPatterns : List (List ℕ) :=
  [[0x55, 0x00, 0x00, 0x00],
   [0x55, 0xaa, 0x00, 0x00],
   [0x00, 0xff, 0x55, 0xaa],
   [0x00, 0xff, 0x33, 0xcc],
   [0x00, 0xff, 0x1c71c7, 0xe38e38]]

/-! ### The drive -/

/-- What the drive does. A write is the position, and `WriteFileWithRetry`
with what it returns and the size; a read is the position and the bytes it
delivers, whatever `ReadFile` returns. `none` is a position that cannot be
set. `cancelled` is what the timer has found of the user by then. -/
structure Drive (δ : Type) where
  write : δ → ℕ → List UInt8 → Option (Bool × ℕ) × δ
  read : δ → ℕ → ℕ → Option (List UInt8) × δ
  cancelled : δ → Bool

variable {δ : Type}

def Drive.writeSectors (drive : Drive δ) (largeDrive : Bool) (d : δ)
    (sectorSize start n : ℕ) (buf : Memory) : ℤ × δ :=
  let size := n * sectorSize
  if size > 0xFFFFFFFF then (-1, d)
  else
    let (outcome, d) := drive.write d (start * sectorSize) (slice buf 0 size)
    match outcome with
    | none => (-1, d)
    | some (ok, written) =>
        if ok = false then (-1, d)
        else if written ≠ size then
          -- some large drives return 0, even though all the data was written
          if largeDrive ∧ written = 0 then (0, d) else (-1, d)
        else (size, d)

/-- `read_sectors`; the bytes go to the front of the buffer. -/
def Drive.readSectors (drive : Drive δ) (d : δ) (sectorSize start n : ℕ)
    (buf : Memory) : ℤ × Memory × δ :=
  let size := n * sectorSize
  if size > 0xFFFFFFFF then (-1, buf, d)
  else
    let (outcome, d) := drive.read d (start * sectorSize) size
    match outcome with
    | none => (-1, buf, d)
    | some bytes =>
        let bytes := bytes.take size
        (bytes.length, blitList buf 0 bytes, d)

/-- `do_read` and `do_write` of what the sectors functions return -/
def blocksDone (blockSize : ℕ) (got : ℤ) : ℕ :=
  if got < 0 then 0 else got.toNat / blockSize

/-! ### The test -/

/-- What `test_rw` is called with, and the settings it looks at. -/
structure TestArgs where
  lastBlock : ℕ
  blockSize : ℕ
  firstBlock : ℕ
  blocksAtOnce : ℕ
  patternType : ℕ
  nbPasses : ℕ
  detectFakes : Bool
  largeDrive : Bool
  /-- `id_offset`, from `rand` -/
  idOffset : ℕ
  maxBb : ℕ

abbrev PB : ℕ := 2 ^ 50

/-- `rand() * (block_size - sizeof(blk64_t)) / RAND_MAX` -/
def fakeOffset (rand blockSize : ℕ) : ℕ := rand * (blockSize - 8) / 0x7fff

namespace TestArgs

def accepted (args : TestArgs) : Bool :=
  args.patternType < 5 && 1 ≤ args.nbPasses && args.nbPasses ≤ 4 &&
    args.firstBlock * args.blockSize ≤ PB && args.lastBlock * args.blockSize ≤ PB

/-- `pattern[pattern_type][pat_idx]` -/
def pattern (args : TestArgs) (patIdx : ℕ) : ℕ :=
  (badblockPatterns.getD args.patternType []).getD patIdx 0

/-- `detect_fakes && (pat_idx == 0)` -/
def stamps (args : TestArgs) (patIdx : ℕ) : Bool :=
  args.detectFakes && patIdx = 0

end TestArgs

/-- Where `test_rw` is: at the head of the loop over the passes, of one of the
loops over the blocks, in the comparison of what was read, at the end of a pass,
or behind it all. -/
inductive TestPc where
  | passHead
  | writing
  | reading
  | comparing (got i : ℕ)
  | passDone
  | finished
  | aborted
deriving DecidableEq, Repr

inductive ErrorType where
  | read
  | write
  | corruption
deriving DecidableEq, Repr

/-- `bb_list` with the counters, and `bb_count`. -/
structure Found where
  bbList : List ℕ
  numReadErrors : ℕ
  numWriteErrors : ℕ
  numCorruptionErrors : ℕ
  bbCount : ℕ
deriving DecidableEq, Repr

/-- `bb_count += bb_output(bad, error_type)` -/
def bbOutput (found : Found) (bad : ℕ) (error : ErrorType) : Found :=
  if bbListTest found.bbList bad then found
  else
    let found := { found with
      bbList := bbListAdd found.bbList bad
      bbCount := found.bbCount + 1 }
    match error with
    | .read => { found with numReadErrors := found.numReadErrors + 1 }
    | .write => { found with numWriteErrors := found.numWriteErrors + 1 }
    | .corruption =>
        { found with numCorruptionErrors := found.numCorruptionErrors + 1 }

structure PassRecords where
  /-- `bb_list` at the start of the pass -/
  before : List ℕ
  /-- the bytes of each block that the drive has taken -/
  written : ℕ → Option (List UInt8)
  writeFailed : ℕ → Bool
  /-- the bytes of each block that the drive has delivered -/
  readBack : ℕ → Option (List UInt8)
  readFailed : ℕ → Bool
  /-- what these bytes were compared with -/
  compared : ℕ → Option (List UInt8)

def PassRecords.start (before : List ℕ) : PassRecords where
  before := before
  written := fun _ => none
  writeFailed := fun _ => false
  readBack := fun _ => none
  readFailed := fun _ => false
  compared := fun _ => none

/-- The statics and the variables of `test_rw`, and the records of the pass. -/
structure TestRw (δ : Type) where
  drive : δ
  found : Found
  patIdx : ℕ
  currentlyTesting : ℕ
  tryout : ℕ
  /-- `none` is `~0` -/
  recoverBlock : Option ℕ
  buffer : Memory
  readBuffer : Memory
  pc : TestPc
  records : PassRecords

/-- The block numbers at `id_offset` of the first blocks of the buffer -/
def stampIds (args : TestArgs) (currentlyTesting : ℕ) (buffer : Memory) :
    ℕ → Memory
  | 0 => buffer
  | i + 1 =>
      blitList (stampIds args currentlyTesting buffer i)
        (args.idOffset + i * args.blockSize) (leBytes 8 (currentlyTesting + i))

def blockAt (args : TestArgs) (buffer : Memory) (i : ℕ) : List UInt8 :=
  slice buffer (i * args.blockSize) args.blockSize

/-- The bytes of the block `b` if it is one of the `got` blocks from `start` on
that were transferred. -/
def transferred (args : TestArgs) (buffer : Memory) (start got b : ℕ) :
    Option (List UInt8) :=
  if start ≤ b ∧ b < start + got then some (blockAt args buffer (b - start))
  else none

namespace TestRw

/-- `max_bb && bb_count >= max_bb` -/
def tooMany (args : TestArgs) (s : TestRw δ) : Bool :=
  args.maxBb ≠ 0 && args.maxBb ≤ s.found.bbCount

def prepare (args : TestArgs) (s : TestRw δ) : TestRw δ :=
  { s with
    tryout :=
      if s.currentlyTesting + s.tryout > args.lastBlock
      then args.lastBlock - s.currentlyTesting else s.tryout
    buffer :=
      if args.stamps s.patIdx
      then stampIds args s.currentlyTesting s.buffer args.blocksAtOnce
      else s.buffer }

/-- `got == 0 && tryout == 1` -/
def failed (s : TestRw δ) (got : ℕ) : Bool := got = 0 && s.tryout = 1

/-- What both loops do behind the transfer of `got` blocks. -/
def advance (args : TestArgs) (error : ErrorType) (got : ℕ) (s : TestRw δ) :
    TestRw δ :=
  let s' :=
    if s.failed got then
      { s with
        found := bbOutput s.found s.currentlyTesting error
        currentlyTesting := s.currentlyTesting + 1 }
    else s
  let s' := { s' with currentlyTesting := s'.currentlyTesting + got }
  if got ≠ s.tryout then
    { s' with
      tryout := 1
      recoverBlock := s'.recoverBlock.or
        (some (s'.currentlyTesting - got + args.blocksAtOnce)) }
  else if s'.recoverBlock = some s'.currentlyTesting then
    { s' with tryout := args.blocksAtOnce, recoverBlock := none }
  else s'

def recordWrite (args : TestArgs) (got : ℕ) (s : TestRw δ) : PassRecords :=
  { s.records with
    written := fun b =>
      (transferred args s.buffer s.currentlyTesting got b).or (s.records.written b)
    writeFailed := fun b =>
      s.records.writeFailed b || (s.failed got && b = s.currentlyTesting) }

def recordRead (args : TestArgs) (got : ℕ) (s : TestRw δ) : PassRecords :=
  { s.records with
    readBack := fun b =>
      (transferred args s.readBuffer s.currentlyTesting got b).or
        (s.records.readBack b)
    readFailed := fun b =>
      s.records.readFailed b || (s.failed got && b = s.currentlyTesting) }

def passHead (drive : Drive δ) (args : TestArgs) (s : TestRw δ) : TestRw δ :=
  if ¬s.patIdx < args.nbPasses then { s with pc := .finished }
  else if drive.cancelled s.drive then { s with pc := .aborted }
  else
    { s with
      buffer := blitList s.buffer 0
        (patternFill (args.pattern s.patIdx) (args.blocksAtOnce * args.blockSize))
      currentlyTesting := args.firstBlock
      tryout := args.blocksAtOnce
      pc := .writing
      records := .start s.found.bbList }

/-- The transfer of a turn of the loop that writes: the blocks done, and the
state behind `do_write`. -/
def transferWrite (drive : Drive δ) (args : TestArgs) (s : TestRw δ) :
    ℕ × TestRw δ :=
  let (result, d) := drive.writeSectors args.largeDrive s.drive args.blockSize
    s.currentlyTesting s.tryout s.buffer
  let got := blocksDone args.blockSize result
  (got, { s with drive := d, records := s.recordWrite args got })

def writeTurn (drive : Drive δ) (args : TestArgs) (s : TestRw δ) : TestRw δ :=
  if ¬s.currentlyTesting < args.lastBlock then
    { s with
      currentlyTesting := args.firstBlock
      tryout := args.blocksAtOnce
      pc := .reading }
  else if drive.cancelled s.drive ∨ s.tooMany args then { s with pc := .aborted }
  else
    let (got, s) := (s.prepare args).transferWrite drive args
    s.advance args .write got

/-- The transfer of a turn of the loop that reads: the blocks done, and the
state behind `do_read`. -/
def transferRead (drive : Drive δ) (args : TestArgs) (s : TestRw δ) :
    ℕ × TestRw δ :=
  let (result, readBuffer, d) := drive.readSectors s.drive args.blockSize
    s.currentlyTesting s.tryout s.readBuffer
  let got := blocksDone args.blockSize result
  let s := { s with drive := d, readBuffer := readBuffer }
  (got, { s with records := s.recordRead args got })

/-- A turn of the loop that reads, up to the comparison -/
def readTurn (drive : Drive δ) (args : TestArgs) (s : TestRw δ) : TestRw δ :=
  if ¬s.currentlyTesting < args.lastBlock then { s with pc := .passDone }
  else if drive.cancelled s.drive ∨ s.tooMany args then { s with pc := .aborted }
  else
    let (got, s) := (s.prepare args).transferRead drive args
    let t := s.advance args .read got
    -- `continue` where not all blocks came
    if got ≠ s.tryout then t else { t with pc := .comparing got 0 }

/-- The comparison of the block `i` of `got` -/
def compareTurn (args : TestArgs) (got i : ℕ) (s : TestRw δ) : TestRw δ :=
  if ¬i < got then { s with pc := .reading }
  else
    let block := s.currentlyTesting + i - got
    let s := { s with records := { s.records with
      compared := Function.update s.records.compared block
        (some (blockAt args s.buffer i)) } }
    if blockAt args s.readBuffer i ≠ blockAt args s.buffer i then
      if s.currentlyTesting * args.blockSize < PB then
        { s with
          found := bbOutput s.found block .corruption
          pc := .comparing got (i + 1) }
      else { s with pc := .aborted }
    else { s with pc := .comparing got (i + 1) }

/-- A step of `test_rw` -/
def step (drive : Drive δ) (args : TestArgs) (s : TestRw δ) :
    Option (TestRw δ) :=
  match s.pc with
  | .passHead => some (s.passHead drive args)
  | .writing => some (s.writeTurn drive args)
  | .reading => some (s.readTurn drive args)
  | .comparing got i => some (s.compareTurn args got i)
  | .passDone => some { s with patIdx := s.patIdx + 1, pc := .passHead }
  | .finished | .aborted => none

/-- The state that `BadBlocks` calls `test_rw` in. -/
structure Started (s : TestRw δ) : Prop where
  found : s.found = ⟨[], 0, 0, 0, 0⟩
  patIdx : s.patIdx = 0
  recoverBlock : s.recoverBlock = none
  pc : s.pc = .passHead

end TestRw

/-- `test_rw`, once its arguments are accepted. -/
def testRw (drive : Drive δ) (args : TestArgs) : System (TestRw δ) Unit where
  init s := args.accepted = true ∧ s.Started
  step _ s := s.step drive args

/-! ## The list of bad blocks -/

section

variable {list : List ℕ} {blk : ℕ}

theorem getD_mem {i : ℕ} (h : i < list.length) : list.getD i 0 ∈ list := by
  rw [← List.getElem_eq_getD (h := h)]
  exact List.getElem_mem h

theorem getD_lt_getD (hsorted : list.Pairwise (· < ·)) {i j : ℕ} (hij : i < j)
    (hj : j < list.length) : list.getD i 0 < list.getD j 0 := by
  rw [← List.getElem_eq_getD (h := lt_trans hij hj),
    ← List.getElem_eq_getD (h := hj)]
  exact List.pairwise_iff_getElem.mp hsorted i j _ hj hij

theorem lt_of_getD_lt (hsorted : list.Pairwise (· < ·)) {i j : ℕ} (hi : i < list.length)
    (h : list.getD i 0 < list.getD j 0) : i < j := by
  by_contra hle
  rcases Nat.lt_or_eq_of_le (Nat.le_of_not_lt hle) with hlt | rfl
  · have hback := getD_lt_getD hsorted hlt hi
    omega
  · exact absurd h (lt_irrefl _)

/-- The search finds what is strictly between its bounds. -/
theorem findLoop_isSome (hsorted : list.Pairwise (· < ·)) :
    ∀ (fuel low high : ℕ), high - low ≤ fuel → high < list.length →
      ((findLoop list blk fuel low high).isSome ↔
        ∃ i, low < i ∧ i < high ∧ list.getD i 0 = blk)
  | 0, low, high, hfuel, _ => by
      simp only [findLoop, Option.isSome_none, Bool.false_eq_true, false_iff]
      rintro ⟨i, hlow, hhigh, -⟩
      omega
  | fuel + 1, low, high, hfuel, hhigh => by
      have hnone (h : high ≤ low + 1) :
          ¬∃ i, low < i ∧ i < high ∧ list.getD i 0 = blk := by
        rintro ⟨i, hi, hi', -⟩
        omega
      rw [findLoop]
      split
      case isFalse hge => simpa using hnone (by omega)
      case isTrue hlt =>
          dsimp only
          split
          case isTrue hmid => simpa using hnone (by omega)
          case isFalse hmid =>
              have hbounds : low < (low + high) / 2 ∧ (low + high) / 2 < high := by
                omega
              split
              case isTrue hfound =>
                  simp only [Option.isSome_some, true_iff]
                  exact ⟨_, hbounds.1, hbounds.2, hfound.symm⟩
              case isFalse hne =>
                  split
                  case isTrue hless =>
                      rw [findLoop_isSome hsorted fuel low _ (by omega) (by omega)]
                      refine ⟨fun ⟨i, hi, hi', hblk⟩ => ⟨i, hi, by omega, hblk⟩, ?_⟩
                      rintro ⟨i, hi, hi', hblk⟩
                      refine ⟨i, hi, ?_, hblk⟩
                      exact lt_of_getD_lt hsorted (by omega) (hblk ▸ hless)
                  case isFalse hgreater =>
                      rw [findLoop_isSome hsorted fuel _ high (by omega) hhigh]
                      refine ⟨fun ⟨i, hi, hi', hblk⟩ => ⟨i, by omega, hi', hblk⟩, ?_⟩
                      rintro ⟨i, hi, hi', hblk⟩
                      refine ⟨i, ?_, hi', hblk⟩
                      exact lt_of_getD_lt hsorted (by omega) (by omega)

theorem bbListTest_iff (hsorted : list.Pairwise (· < ·)) :
    bbListTest list blk = true ↔ blk ∈ list := by
  unfold bbListTest bbListFind
  split
  case isTrue hnil => simp [List.length_eq_zero_iff.mp hnil]
  case isFalse hne =>
      have hlast : list.length - 1 < list.length := by omega
      dsimp only
      split
      case isTrue hfirst =>
          simp only [Option.isSome_some, true_iff]
          rw [hfirst]
          exact getD_mem (by omega)
      case isFalse hfirst =>
          split
          case isTrue hhigh =>
              simp only [Option.isSome_some, true_iff]
              rw [hhigh]
              exact getD_mem hlast
          case isFalse hhigh =>
              rw [findLoop_isSome hsorted _ _ _ (by omega) hlast]
              constructor
              · rintro ⟨i, -, hi, rfl⟩
                exact getD_mem (by omega)
              · intro hmem
                obtain ⟨i, hi, rfl⟩ := List.mem_iff_getElem.mp hmem
                rw [List.getElem_eq_getD 0] at hfirst hhigh ⊢
                refine ⟨i, ?_, ?_, rfl⟩
                · exact Nat.pos_of_ne_zero fun h => hfirst (h ▸ rfl)
                · have : i ≠ list.length - 1 := fun h => hhigh (h ▸ rfl)
                  omega

/-- The place of a block that is not in the list: behind the smaller ones. -/
theorem placeLoop_eq : ∀ {list : List ℕ} (i : ℕ), list.Pairwise (· < ·) →
    blk ∉ list → ∃ front back, list = front ++ back ∧
      placeLoop blk list i = some (i + front.length) ∧
      (∀ b ∈ front, b < blk) ∧ (∀ b ∈ back, blk < b)
  | [], i, _, _ => ⟨[], [], rfl, rfl, by simp, by simp⟩
  | b :: list, i, hsorted, hnew => by
      obtain ⟨hhead, htail⟩ := List.pairwise_cons.mp hsorted
      have hne : b ≠ blk := fun h => hnew (h ▸ List.mem_cons_self)
      by_cases hlt : blk < b
      · refine ⟨[], b :: list, rfl, ?_, by simp, ?_⟩
        · simp [placeLoop, hne, hlt]
        · intro c hc
          rcases List.mem_cons.mp hc with rfl | hc
          · exact hlt
          · exact lt_trans hlt (hhead c hc)
      · obtain ⟨front, back, hsplit, hplace, hfront, hback⟩ :=
          placeLoop_eq (i + 1) htail fun h => hnew (List.mem_cons_of_mem b h)
        refine ⟨b :: front, back, congrArg (b :: ·) hsplit, ?_, ?_, hback⟩
        · rw [placeLoop, if_neg hne, if_neg hlt, hplace, List.length_cons]
          congr 1
          omega
        · intro c hc
          rcases List.mem_cons.mp hc with rfl | hc
          · omega
          · exact hfront c hc

/-- What `bb_u64_list_add` does with a block that is not in the list. -/
structure Added (list : List ℕ) (blk : ℕ) (list' : List ℕ) : Prop where
  sorted : list'.Pairwise (· < ·)
  length : list'.length = list.length + 1
  mem : ∀ b, b ∈ list' ↔ b = blk ∨ b ∈ list

theorem bbListAdd_added (hsorted : list.Pairwise (· < ·)) (hnew : blk ∉ list) :
    Added list blk (bbListAdd list blk) := by
  have hinsert {front back : List ℕ} (hsplit : list = front ++ back)
      (hfront : ∀ b ∈ front, b < blk) (hback : ∀ b ∈ back, blk < b) :
      Added list blk (front ++ blk :: back) := by
    subst hsplit
    obtain ⟨hf, hb, hfb⟩ := List.pairwise_append.mp hsorted
    refine ⟨?_, ?_, ?_⟩
    · refine List.pairwise_append.mpr ⟨hf, List.pairwise_cons.mpr ⟨hback, hb⟩, ?_⟩
      intro a ha c hc
      rcases List.mem_cons.mp hc with rfl | hc
      · exact hfront a ha
      · exact hfb a ha c hc
    · simp only [List.length_append, List.length_cons]
      omega
    · intro b
      simp only [List.mem_append, List.mem_cons]
      tauto
  have hlastMem (hne : list.length ≠ 0) :
      list.getD (list.length - 1) 0 ∈ list := getD_mem (by omega)
  unfold bbListAdd
  dsimp only
  split
  case isTrue h => exact absurd (h.2 ▸ hlastMem h.1) hnew
  case isFalse h =>
      split
      case isTrue hend =>
          refine hinsert (List.append_nil list).symm (fun b hb => ?_) (by simp)
          obtain ⟨i, hi, rfl⟩ := List.mem_iff_getElem.mp hb
          rw [List.getElem_eq_getD 0]
          rcases hend with h0 | hlt
          · omega
          · rcases Nat.lt_or_ge i (list.length - 1) with hi' | hi'
            · exact lt_trans (getD_lt_getD hsorted hi' (by omega)) hlt
            · rwa [show i = list.length - 1 by omega]
      case isFalse hend =>
          obtain ⟨front, back, hsplit, hplace, hfront, hback⟩ :=
            @placeLoop_eq blk _ 0 hsorted hnew
          rw [hplace, Nat.zero_add]
          have htake : list.take front.length = front := by
            rw [hsplit, List.take_left]
          have hdrop : list.drop front.length = back := by
            rw [hsplit, List.drop_left]
          simp only [htake, hdrop]
          exact hinsert hsplit hfront hback

end

/-! ## The count -/

/-- The list is sorted, and its length is what the counters say. -/
structure Found.Accounted (found : Found) : Prop where
  sorted : found.bbList.Pairwise (· < ·)
  length : found.bbCount = found.bbList.length
  sum : found.bbCount = found.numReadErrors + found.numWriteErrors
    + found.numCorruptionErrors

/-- `bb_output` adds the block, counts it, and counts it once. -/
theorem bbOutput_accounted {found : Found} (h : found.Accounted) (bad : ℕ)
    (error : ErrorType) :
    (bbOutput found bad error).Accounted ∧
    ∀ b, b ∈ (bbOutput found bad error).bbList ↔ b = bad ∨ b ∈ found.bbList := by
  have hsum := h.sum
  unfold bbOutput
  split
  case isTrue hthere =>
      refine ⟨h, fun b => ⟨.inr, ?_⟩⟩
      rintro (rfl | hb)
      · exact (bbListTest_iff h.sorted).mp hthere
      · exact hb
  case isFalse hnew =>
      obtain ⟨hsorted, hlen, hmem⟩ := bbListAdd_added h.sorted
        fun hb => hnew ((bbListTest_iff h.sorted).mpr hb)
      have hlength := h.length
      cases error <;>
        exact ⟨⟨hsorted, by dsimp only; omega, by dsimp only; omega⟩, hmem⟩

/-! ## What a turn does -/

namespace TestRw

variable {args : TestArgs} {s : TestRw δ}

theorem failed_got {got : ℕ} (h : s.failed got = true) : got = 0 := by
  simp only [failed, Bool.and_eq_true, decide_eq_true_eq] at h
  exact h.1

/-- Behind the transfer the position moves over what was done, and over a
single block that failed; that one is reported. -/
structure Advanced (error : ErrorType) (got : ℕ) (s t : TestRw δ) : Prop where
  found : t.found
    = if s.failed got then bbOutput s.found s.currentlyTesting error else s.found
  currentlyTesting : t.currentlyTesting
    = s.currentlyTesting + if s.failed got then 1 else got
  drive : t.drive = s.drive
  patIdx : t.patIdx = s.patIdx
  buffer : t.buffer = s.buffer
  readBuffer : t.readBuffer = s.readBuffer
  pc : t.pc = s.pc
  records : t.records = s.records

theorem advance_advanced (args : TestArgs) (s : TestRw δ) (error : ErrorType)
    (got : ℕ) : Advanced error got s (s.advance args error got) := by
  by_cases hfailed : s.failed got = true
  · obtain rfl := failed_got hfailed
    simp only [advance, hfailed, if_true, Nat.add_zero]
    split
    case isTrue => constructor <;> simp [hfailed]
    case isFalse => split <;> constructor <;> simp [hfailed]
  · simp only [advance, hfailed, Bool.false_eq_true, if_false]
    split
    case isTrue => constructor <;> simp [hfailed]
    case isFalse => split <;> constructor <;> simp [hfailed]

end TestRw

/-! ## The records -/

/-- The blocks from `first` up to `upto` are the ones that are done or failed,
and none is both. -/
structure Covers (done : ℕ → Option (List UInt8)) (failed : ℕ → Bool)
    (first upto : ℕ) : Prop where
  le : first ≤ upto
  iff : ∀ b, (done b).isSome ∨ failed b = true ↔ first ≤ b ∧ b < upto
  apart : ∀ b, failed b = true → done b = none

namespace Covers

variable {done : ℕ → Option (List UInt8)} {failed : ℕ → Bool}
  {first upto : ℕ}

theorem start (first : ℕ) : Covers (fun _ => none) (fun _ => false) first first :=
  ⟨le_rfl, fun b => by simp, fun _ _ => rfl⟩

theorem done_lt (h : Covers done failed first upto) {b : ℕ}
    (hb : (done b).isSome) : first ≤ b ∧ b < upto :=
  (h.iff b).mp (.inl hb)

theorem none_of_ge (h : Covers done failed first upto) {b : ℕ} (hb : upto ≤ b) :
    done b = none := by
  by_contra hne
  have := (h.done_lt (Option.isSome_iff_ne_none.mpr hne)).2
  omega

/-- A transfer at the end of what is covered, of `got` blocks or of one that
failed. -/
theorem transfer (h : Covers done failed first upto) (args : TestArgs)
    (buffer : Memory) (got : ℕ) {fails : Bool} (hgot : fails = true → got = 0) :
    Covers (fun b => (transferred args buffer upto got b).or (done b))
      (fun b => failed b || (fails && b = upto)) first
      (upto + (if fails = true then 1 else got)) := by
  have hle := h.le
  have hdone (b : ℕ) : (transferred args buffer upto got b).isSome
      ↔ upto ≤ b ∧ b < upto + got := by
    unfold transferred
    split <;> simp_all
  refine ⟨by omega, fun b => ?_, fun b hb => ?_⟩
  · rw [Option.isSome_or, Bool.or_eq_true, hdone, Bool.or_eq_true,
      Bool.and_eq_true, decide_eq_true_eq]
    have hiff := h.iff b
    cases fails with
    | false =>
        simp only [Bool.false_eq_true, false_and, or_false, if_false]
        rw [or_assoc, hiff]
        omega
    | true =>
        rw [hgot rfl]
        simp only [true_and, if_true, ← or_assoc]
        rw [or_assoc, or_assoc, ← or_assoc (b := failed b = true), hiff]
        omega
  · rcases Bool.or_eq_true _ _ ▸ hb with hb | hb
    · have hin := (h.iff b).mp (.inr hb)
      have hnone : transferred args buffer upto got b = none :=
        if_neg (by omega)
      rw [hnone, h.apart b hb]
      rfl
    · simp only [Bool.and_eq_true, decide_eq_true_eq] at hb
      have hnone : transferred args buffer upto got b = none :=
        if_neg (by rw [hgot hb.1]; omega)
      rw [hnone, h.none_of_ge hb.2.ge]
      rfl

end Covers

namespace PassRecords

/-- The block could not be written or read, or what was read back is not what
was written. -/
def Bad (r : PassRecords) (b : ℕ) : Prop :=
  r.writeFailed b = true ∨ r.readFailed b = true ∨
    ∃ w x, r.written b = some w ∧ r.readBack b = some x ∧ x ≠ w

/-- What was read back is not what it was compared with. -/
def Differs (r : PassRecords) (b : ℕ) : Prop :=
  ∃ e x, r.compared b = some e ∧ r.readBack b = some x ∧ x ≠ e

/-- The comparison of the block says what there is to say: it was made, and
gave what a comparison with the bytes that were written would have given. -/
def Judged (r : PassRecords) (b : ℕ) : Prop :=
  ∀ w x, r.written b = some w → r.readBack b = some x → (r.Differs b ↔ x ≠ w)

end PassRecords

namespace TestRw

variable {args : TestArgs} {s : TestRw δ}

/-- While the blocks are written: those up to the position were, or failed and
are in the list. -/
structure Writing (args : TestArgs) (s : TestRw δ) : Prop where
  covers : Covers s.records.written s.records.writeFailed args.firstBlock
    s.currentlyTesting
  mem : ∀ b, b ∈ s.found.bbList ↔
    b ∈ s.records.before ∨ s.records.writeFailed b = true
  readBack : s.records.readBack = fun _ => none
  readFailed : s.records.readFailed = fun _ => false
  compared : s.records.compared = fun _ => none

/-- While the blocks are read: those up to the position were, or failed, and
the list has what failed or differed. -/
structure Reading (args : TestArgs) (s : TestRw δ) : Prop where
  written : ∃ upto, args.lastBlock ≤ upto ∧ s.currentlyTesting ≤ upto ∧
    Covers s.records.written s.records.writeFailed args.firstBlock upto
  covers : Covers s.records.readBack s.records.readFailed args.firstBlock
    s.currentlyTesting
  compared : ∀ b, (s.records.compared b).isSome → (s.records.readBack b).isSome
  mem : ∀ b, b ∈ s.found.bbList ↔ b ∈ s.records.before ∨
    s.records.writeFailed b = true ∨ s.records.readFailed b = true ∨
    s.records.Differs b

/-- While `got` blocks are compared: those from `i` on are still to be. -/
structure Comparing (args : TestArgs) (got i : ℕ) (s : TestRw δ) : Prop where
  reading : s.Reading args
  le : got ≤ s.currentlyTesting
  readBack : ∀ j < got, s.records.readBack (s.currentlyTesting - got + j)
    = some (blockAt args s.readBuffer j)
  compared : ∀ j, i ≤ j → s.records.compared (s.currentlyTesting - got + j) = none

/-- The invariant of the test -/
structure Ok (args : TestArgs) (s : TestRw δ) : Prop where
  accounted : s.found.Accounted
  writing : s.pc = .writing → s.Writing args
  reading : s.pc = .reading → s.Reading args
  comparing : ∀ got i, s.pc = .comparing got i → s.Comparing args got i
  passDone : s.pc = .passDone →
    s.Reading args ∧ args.lastBlock ≤ s.currentlyTesting

namespace Ok

theorem of_writing (hacc : s.found.Accounted) (hpc : s.pc = .writing)
    (h : s.Writing args) : s.Ok args := by
  refine ⟨hacc, fun _ => h, ?_, ?_, ?_⟩ <;> simp [hpc]

theorem of_reading (hacc : s.found.Accounted) (hpc : s.pc = .reading)
    (h : s.Reading args) : s.Ok args := by
  refine ⟨hacc, ?_, fun _ => h, ?_, ?_⟩ <;> simp [hpc]

theorem of_comparing (hacc : s.found.Accounted) {got i : ℕ}
    (hpc : s.pc = .comparing got i) (h : s.Comparing args got i) : s.Ok args := by
  refine ⟨hacc, by simp [hpc], by simp [hpc], fun got' i' h' => ?_, by simp [hpc]⟩
  rw [hpc] at h'
  cases h'
  exact h

theorem of_other (hacc : s.found.Accounted)
    (hpc : s.pc = .passHead ∨ s.pc = .finished ∨ s.pc = .aborted) :
    s.Ok args := by
  rcases hpc with hpc | hpc | hpc <;>
    exact ⟨hacc, by simp [hpc], by simp [hpc], by simp [hpc], by simp [hpc]⟩

end Ok

variable {drive : Drive δ}

/-- What is in the list and what it counts, behind a transfer. -/
theorem Advanced.mem {error : ErrorType} {got : ℕ} {t : TestRw δ}
    (h : Advanced error got s t) (hacc : s.found.Accounted) :
    t.found.Accounted ∧ ∀ b, b ∈ t.found.bbList ↔
      b ∈ s.found.bbList ∨ (s.failed got && b = s.currentlyTesting) = true := by
  obtain ⟨hacc', hmem⟩ := bbOutput_accounted hacc s.currentlyTesting error
  rw [h.found]
  split
  case isTrue hfailed =>
      refine ⟨hacc', fun b => ?_⟩
      rw [hmem]
      simp only [hfailed, Bool.true_and, decide_eq_true_eq]
      exact or_comm
  case isFalse hgood => exact ⟨hacc, fun b => by simp [hgood]⟩

theorem passHead_ok (h : s.Ok args) : (s.passHead drive args).Ok args := by
  unfold passHead
  split
  case isTrue => exact .of_other h.accounted (by simp)
  case isFalse =>
      split
      case isTrue => exact .of_other h.accounted (by simp)
      case isFalse =>
          exact .of_writing h.accounted rfl
            ⟨.start _, fun b => by simp [PassRecords.start], rfl, rfl, rfl⟩

/-- A turn of the writing loop records what it wrote or could not write, and
reports the latter. -/
theorem writeTurn_ok (hacc : s.found.Accounted) (hpc : s.pc = .writing)
    (h : s.Writing args) : (s.writeTurn drive args).Ok args := by
  unfold writeTurn
  split
  case isTrue hend =>
      refine .of_reading hacc rfl
        ⟨⟨_, Nat.le_of_not_lt hend, h.covers.le, h.covers⟩, ?_, ?_, ?_⟩
      · show Covers s.records.readBack s.records.readFailed _ _
        rw [h.readBack, h.readFailed]
        exact .start _
      · intro b hb
        rw [show s.records.compared b = none by rw [h.compared]] at hb
        cases hb
      · intro b
        show b ∈ s.found.bbList ↔ _
        simp [h.mem, h.readFailed, h.compared, PassRecords.Differs]
  case isFalse =>
      split
      case isTrue => exact .of_other hacc (by simp)
      case isFalse =>
          set p := s.prepare args with hp
          obtain ⟨got, u, ht, hu, hpcu, hfound, hpos, hfailed⟩ : ∃ got u,
              p.transferWrite drive args = (got, u) ∧
              u.records = p.recordWrite args got ∧ u.pc = .writing ∧
              u.found = s.found ∧ u.currentlyTesting = s.currentlyTesting ∧
              u.failed got = p.failed got :=
            ⟨_, _, rfl, rfl, hpc, rfl, rfl, rfl⟩
          have hadv := advance_advanced args u .write got
          obtain ⟨hacc', hmem⟩ := hadv.mem (hfound ▸ hacc)
          simp only [ht]
          refine .of_writing hacc' (hadv.pc.trans hpcu) ⟨?_, fun b => ?_, ?_, ?_, ?_⟩
          · rw [hadv.records, hadv.currentlyTesting, hu, hpos, hfailed]
            exact h.covers.transfer args p.buffer got failed_got
          · rw [hmem, hadv.records, hu, hfound, h.mem, hpos, hfailed, or_assoc,
              ← Bool.or_eq_true]
            rfl
          · rw [hadv.records, hu]
            exact h.readBack
          · rw [hadv.records, hu]
            exact h.readFailed
          · rw [hadv.records, hu]
            exact h.compared

/-- Blocks that are read now were not compared yet, and those that were
compared are not read again. -/
theorem Reading.differs_recordRead (h : s.Reading args) {r : PassRecords}
    {buffer : Memory} {got : ℕ} (hcompared : r.compared = s.records.compared)
    (hread : r.readBack = fun b =>
      (transferred args buffer s.currentlyTesting got b).or (s.records.readBack b))
    (b : ℕ) : r.Differs b ↔ s.records.Differs b := by
  unfold PassRecords.Differs
  rw [hcompared, hread]
  by_cases hb : b < s.currentlyTesting
  · have hnone : transferred args buffer s.currentlyTesting got b = none :=
      if_neg (by omega)
    simp only [hnone, Option.none_or]
  · have hnone : s.records.compared b = none := by
      by_contra hne
      have hsome := h.compared b (Option.isSome_iff_ne_none.mpr hne)
      exact hb (h.covers.done_lt hsome).2
    simp [hnone]

theorem prepare_le (h : s.currentlyTesting < args.lastBlock) :
    s.currentlyTesting + (s.prepare args).tryout ≤ args.lastBlock := by
  unfold prepare
  dsimp only
  split <;> omega

theorem transferRead_le (drive : Drive δ) (args : TestArgs) (s : TestRw δ) :
    (s.transferRead drive args).1 ≤ s.tryout := by
  have hzero : blocksDone args.blockSize (-1) = 0 := rfl
  unfold transferRead Drive.readSectors
  dsimp only
  split
  case isTrue => simp [hzero]
  case isFalse =>
      split
      · simp [hzero]
      · rename_i bytes _
        have hlen := List.length_take_le (s.tryout * args.blockSize) bytes
        simp only [blocksDone, Int.toNat_natCast]
        split
        · exact Nat.zero_le _
        · apply Nat.div_le_of_le_mul
          rw [Nat.mul_comm args.blockSize]
          exact hlen

/-- A turn of the reading loop records what it read or could not read, and
reports the latter. What came whole is compared next. -/
theorem readTurn_ok (hacc : s.found.Accounted) (hpc : s.pc = .reading)
    (h : s.Reading args) : (s.readTurn drive args).Ok args := by
  unfold readTurn
  split
  case isTrue hend =>
      exact ⟨hacc, nofun, nofun, nofun,
        fun _ => ⟨⟨h.written, h.covers, h.compared, h.mem⟩, Nat.le_of_not_lt hend⟩⟩
  case isFalse hlast =>
      split
      case isTrue => exact .of_other hacc (by simp)
      case isFalse =>
          have hbatch := @prepare_le _ args _ (Decidable.not_not.mp hlast)
          set p := s.prepare args with hp
          have hgot := transferRead_le drive args p
          obtain ⟨got, u, ht, hwritten, hwf, hbefore, hcompared, hread, hrf, hpcu,
            hfound, hpos, hfailed⟩ : ∃ got u, p.transferRead drive args = (got, u) ∧
              u.records.written = s.records.written ∧
              u.records.writeFailed = s.records.writeFailed ∧
              u.records.before = s.records.before ∧
              u.records.compared = s.records.compared ∧
              (u.records.readBack = fun b =>
                (transferred args u.readBuffer s.currentlyTesting got b).or
                  (s.records.readBack b)) ∧
              (u.records.readFailed = fun b => s.records.readFailed b
                || (u.failed got && b = s.currentlyTesting)) ∧
              u.pc = .reading ∧ u.found = s.found ∧
              u.currentlyTesting = s.currentlyTesting ∧
              u.failed got = p.failed got :=
            ⟨_, _, rfl, rfl, rfl, rfl, rfl, rfl, rfl, hpc, rfl, rfl, rfl⟩
          have hadv := advance_advanced args u .read got
          obtain ⟨hacc', hmem⟩ := hadv.mem (hfound ▸ hacc)
          have hreading : (u.advance args .read got).Reading args := by
            refine ⟨?_, ?_, fun b hb => ?_, fun b => ?_⟩
            · obtain ⟨upto, hupto, -, hcovers⟩ := h.written
              refine ⟨upto, hupto, ?_, by rwa [hadv.records, hwritten, hwf]⟩
              rw [hadv.currentlyTesting, hpos]
              rw [ht] at hgot
              split <;> omega
            · rw [hadv.records, hadv.currentlyTesting, hread, hrf, hpos]
              exact h.covers.transfer args u.readBuffer got failed_got
            · rw [hadv.records, hcompared] at hb
              rw [hadv.records, hread, Option.isSome_or, h.compared b hb,
                Bool.or_true]
            · have hdiffers := h.differs_recordRead hcompared hread b
              rw [hmem, hadv.records, hdiffers, hfound, h.mem, hbefore, hwf, hrf,
                hpos]
              simp only [Bool.or_eq_true]
              tauto
          simp only [ht]
          split
          case isTrue => exact .of_reading hacc' (hadv.pc.trans hpcu) hreading
          case isFalse hall =>
              have hgood : ¬u.failed got = true := by
                intro hbad
                simp only [failed, Bool.and_eq_true, decide_eq_true_eq] at hbad
                omega
              have hct : (u.advance args .read got).currentlyTesting
                  = s.currentlyTesting + got := by
                rw [hadv.currentlyTesting, if_neg hgood, hpos]
              refine .of_comparing hacc' rfl
                ⟨⟨hreading.written, hreading.covers, hreading.compared, hreading.mem⟩,
                  ?_, fun j hj => ?_, fun j _ => ?_⟩
              · show got ≤ (u.advance args .read got).currentlyTesting
                omega
              · show (u.advance args .read got).records.readBack
                  ((u.advance args .read got).currentlyTesting - got + j)
                  = some (blockAt args (u.advance args .read got).readBuffer j)
                rw [hct, Nat.add_sub_cancel, hadv.records, hread, hadv.readBuffer]
                simp only [transferred]
                rw [if_pos (by omega), Nat.add_sub_cancel_left]
                rfl
              · show (u.advance args .read got).records.compared
                  ((u.advance args .read got).currentlyTesting - got + j) = none
                rw [hct, Nat.add_sub_cancel, hadv.records, hcompared]
                by_contra hne
                have hsome := h.compared _ (Option.isSome_iff_ne_none.mpr hne)
                have := (h.covers.done_lt hsome).2
                omega

/-- A comparison adds the block to the list if it differs. -/
theorem compareTurn_ok (hacc : s.found.Accounted) {got i : ℕ}
    (h : s.Comparing args got i) : (s.compareTurn args got i).Ok args := by
  unfold compareTurn
  split
  case isTrue =>
      exact .of_reading hacc rfl
        ⟨h.reading.written, h.reading.covers, h.reading.compared, h.reading.mem⟩
  case isFalse hi =>
      have hlt : i < got := Decidable.not_not.mp hi
      have hle := h.le
      have hblock : s.currentlyTesting + i - got = s.currentlyTesting - got + i := by
        omega
      have hread := h.readBack i hlt
      have hnone := h.compared i le_rfl
      rw [← hblock] at hread hnone
      set block := s.currentlyTesting + i - got with hb
      -- the records behind the comparison, and what the list must have then
      set records : PassRecords := { s.records with
        compared := Function.update s.records.compared block
          (some (blockAt args s.buffer i)) } with hrecords
      have hdiffers (b : ℕ) : records.Differs b ↔ s.records.Differs b ∨
          b = block ∧ blockAt args s.readBuffer i ≠ blockAt args s.buffer i := by
        unfold PassRecords.Differs
        by_cases hbb : b = block
        · subst hbb
          simp [hrecords, hnone, hread]
        · simp [hrecords, hbb]
      have hcompared (b : ℕ) (hsome : (records.compared b).isSome) :
          (records.readBack b).isSome := by
        by_cases hbb : b = block
        · show (s.records.readBack b).isSome
          rw [hbb, hread]
          rfl
        · have hsame : records.compared b = s.records.compared b :=
            Function.update_of_ne hbb _ _
          exact h.reading.compared b (hsame ▸ hsome)
      have hrest (j : ℕ) (hj : i + 1 ≤ j) :
          records.compared (s.currentlyTesting - got + j) = none := by
        have hne : s.currentlyTesting - got + j ≠ block := by omega
        exact (Function.update_of_ne hne _ _).trans (h.compared j (by omega))
      obtain ⟨hacc', hmem⟩ := bbOutput_accounted hacc block .corruption
      dsimp only
      split
      case isTrue hne =>
          split
          case isTrue =>
              refine .of_comparing hacc' rfl
                ⟨⟨h.reading.written, h.reading.covers, hcompared, fun b => ?_⟩, hle,
                  h.readBack, hrest⟩
              refine (hmem b).trans ?_
              rw [h.reading.mem]
              show _ ↔ _ ∨ _ ∨ _ ∨ records.Differs b
              rw [hdiffers]
              simp only [hne, not_false_eq_true, and_true, ne_eq]
              tauto
          case isFalse => exact .of_other hacc (by simp)
      case isFalse heq =>
          refine .of_comparing hacc rfl
            ⟨⟨h.reading.written, h.reading.covers, hcompared, fun b => ?_⟩, hle,
              h.readBack, hrest⟩
          refine (h.reading.mem b).trans ?_
          show _ ↔ _ ∨ _ ∨ _ ∨ records.Differs b
          rw [hdiffers]
          simp only [heq, and_false, or_false]

theorem step_ok (h : s.Ok args) {t : TestRw δ}
    (hstep : s.step drive args = some t) : t.Ok args := by
  cases hpc : s.pc with
  | passHead =>
      simp only [step, hpc, Option.some.injEq] at hstep
      exact hstep ▸ passHead_ok h
  | writing =>
      simp only [step, hpc, Option.some.injEq] at hstep
      exact hstep ▸ writeTurn_ok h.accounted hpc (h.writing hpc)
  | reading =>
      simp only [step, hpc, Option.some.injEq] at hstep
      exact hstep ▸ readTurn_ok h.accounted hpc (h.reading hpc)
  | comparing got i =>
      simp only [step, hpc, Option.some.injEq] at hstep
      exact hstep ▸ compareTurn_ok h.accounted (h.comparing got i hpc)
  | passDone =>
      simp only [step, hpc, Option.some.injEq] at hstep
      subst hstep
      exact .of_other h.accounted (by simp)
  | finished | aborted => simp [step, hpc] at hstep

end TestRw

theorem testRw_ok {drive : Drive δ} {args : TestArgs} {s : TestRw δ}
    (h : (testRw drive args).Reachable s) : s.Ok args := by
  refine h.invariant (I := TestRw.Ok args) (fun s hs => ?_)
    fun s _ t (hs : s.Ok args) (hstep : s.step drive args = some t) =>
      TestRw.step_ok hs hstep
  refine .of_other ?_ (.inl hs.2.pc)
  rw [hs.2.found]
  exact ⟨.nil, rfl, rfl⟩

/-! ## What the list says of a pass -/

namespace TestRw

variable {drive : Drive δ} {args : TestArgs} {s : TestRw δ}

/-- At the end of a pass all blocks were tried. -/
theorem Reading.tried (h : s.Reading args)
    (hend : args.lastBlock ≤ s.currentlyTesting) {b : ℕ}
    (hfirst : args.firstBlock ≤ b) (hlast : b < args.lastBlock) :
    ((s.records.written b).isSome ∨ s.records.writeFailed b = true) ∧
    ((s.records.readBack b).isSome ∨ s.records.readFailed b = true) := by
  obtain ⟨upto, hupto, -, hwritten⟩ := h.written
  exact ⟨(hwritten.iff b).mpr ⟨hfirst, by omega⟩,
    (h.covers.iff b).mpr ⟨hfirst, by omega⟩⟩

/-- The list is right exactly where the comparisons are. -/
theorem Reading.right_iff (h : s.Reading args) :
    (∀ b, b ∈ s.found.bbList ↔ b ∈ s.records.before ∨ s.records.Bad b) ↔
      ∀ b, b ∉ s.records.before → s.records.Judged b := by
  obtain ⟨upto, -, hupto, hwritten⟩ := h.written
  constructor
  · intro hright b hnew w x hw hx
    have hgood : ¬s.records.writeFailed b = true := by
      intro hfailed
      rw [hwritten.apart b hfailed] at hw
      cases hw
    have hread : ¬s.records.readFailed b = true := by
      intro hfailed
      rw [h.covers.apart b hfailed] at hx
      cases hx
    have hiff := (h.mem b).symm.trans (hright b)
    simp only [hnew, hgood, hread, false_or, PassRecords.Bad, Bool.false_eq_true]
      at hiff
    rw [hiff]
    simp [hw, hx]
  · intro hjudged b
    rw [h.mem]
    by_cases hnew : b ∈ s.records.before
    · simp [hnew]
    · simp only [hnew, false_or, PassRecords.Bad]
      constructor
      · rintro (hfailed | hfailed | hdiffers)
        · exact .inl hfailed
        · exact .inr (.inl hfailed)
        · obtain ⟨e, x, -, hx, -⟩ := id hdiffers
          have hin := h.covers.done_lt (by rw [hx]; rfl)
          rcases (hwritten.iff b).mpr ⟨hin.1, by omega⟩ with hsome | hfailed
          · obtain ⟨w, hw⟩ := Option.isSome_iff_exists.mp hsome
            exact .inr (.inr ⟨w, x, hw, hx, (hjudged b hnew w x hw hx).mp hdiffers⟩)
          · exact .inl hfailed
      · rintro (hfailed | hfailed | ⟨w, x, hw, hx, hne⟩)
        · exact .inl hfailed
        · exact .inr (.inl hfailed)
        · exact .inr (.inr ((hjudged b hnew w x hw hx).mpr hne))

/-- What the drive does next lets the comparison be what it is for: a read
delivers all of its blocks or none, and the buffer has the bytes that were
written to them. -/
def Careful (drive : Drive δ) (args : TestArgs) (s : TestRw δ) : Prop :=
  s.pc = .reading → s.currentlyTesting < args.lastBlock →
    let p := s.prepare args
    let got := (p.transferRead drive args).1
    (got = 0 ∨ got = p.tryout) ∧
      ∀ i < got, ∀ w, s.records.written (s.currentlyTesting + i) = some w →
        blockAt args p.buffer i = w

instance (drive : Drive δ) (args : TestArgs) :
    DecidablePred (Careful drive args) := fun s =>
  inferInstanceAs (Decidable (s.pc = .reading → s.currentlyTesting < args.lastBlock →
    (((s.prepare args).transferRead drive args).1 = 0 ∨
        ((s.prepare args).transferRead drive args).1 = (s.prepare args).tryout) ∧
      ∀ i < ((s.prepare args).transferRead drive args).1,
        ∀ w ∈ s.records.written (s.currentlyTesting + i),
          blockAt args (s.prepare args).buffer i = w))

/-- Of what was read back every block was compared with what was written. -/
def Settled (r : PassRecords) (b : ℕ) : Prop :=
  ∀ w, r.written b = some w → (r.readBack b).isSome → r.compared b = some w

theorem Settled.judged {r : PassRecords} {b : ℕ} (h : Settled r b) :
    r.Judged b := by
  intro w x hw hx
  simp [PassRecords.Differs, h w hw (by rw [hx]; rfl), hx]

/-- The invariant of a test whose steps are careful. -/
structure Settling (args : TestArgs) (s : TestRw δ) : Prop where
  done : s.pc = .reading ∨ s.pc = .passDone → ∀ b, Settled s.records b
  comparing : ∀ got i, s.pc = .comparing got i →
    (∀ b < s.currentlyTesting - got + i, Settled s.records b) ∧
    ∀ j, i ≤ j → j < got → ∀ w,
      s.records.written (s.currentlyTesting - got + j) = some w →
        blockAt args s.buffer j = w

theorem writeTurn_settling (hpc : s.pc = .writing) (h : s.Writing args) :
    (s.writeTurn drive args).Settling args := by
  unfold writeTurn
  split
  case isTrue =>
      refine ⟨fun _ b w _ hsome => ?_, nofun⟩
      rw [show s.records.readBack b = none by rw [h.readBack]] at hsome
      cases hsome
  case isFalse =>
      split
      case isTrue => exact ⟨by simp, nofun⟩
      case isFalse =>
          have hstay : ((((s.prepare args).transferWrite drive args).2).advance args
              .write ((s.prepare args).transferWrite drive args).1).pc = .writing :=
            (advance_advanced args _ .write _).pc.trans hpc
          exact ⟨by simp [hstay], fun got i hcomparing => by simp [hstay] at hcomparing⟩

theorem readTurn_settling (hcareful : s.Careful drive args)
    (hpc : s.pc = .reading) (h : ∀ b, Settled s.records b) :
    (s.readTurn drive args).Settling args := by
  unfold readTurn
  split
  case isTrue => exact ⟨fun _ => h, nofun⟩
  case isFalse hlast =>
      split
      case isTrue => exact ⟨by simp, nofun⟩
      case isFalse =>
          obtain ⟨hall, hsame⟩ := hcareful hpc (Decidable.not_not.mp hlast)
          set p := s.prepare args with hp
          obtain ⟨got, u, ht, hwritten, hcompared, hread, hpcu, hpos, htry,
            hbuffer⟩ : ∃ got u, p.transferRead drive args = (got, u) ∧
              u.records.written = s.records.written ∧
              u.records.compared = s.records.compared ∧
              (u.records.readBack = fun b =>
                (transferred args u.readBuffer s.currentlyTesting got b).or
                  (s.records.readBack b)) ∧
              u.pc = .reading ∧ u.currentlyTesting = s.currentlyTesting ∧
              u.tryout = p.tryout ∧ u.buffer = p.buffer :=
            ⟨_, _, rfl, rfl, rfl, rfl, hpc, rfl, rfl, rfl⟩
          have hadv := advance_advanced args u .read got
          rw [ht] at hall hsame
          -- the blocks that were not transferred now are as they were
          have hrest (b : ℕ) (hb : ¬(s.currentlyTesting ≤ b ∧
              b < s.currentlyTesting + got)) :
              Settled (u.advance args .read got).records b := by
            rw [hadv.records]
            intro w hw hsome
            rw [hread] at hsome
            simp only [transferred, if_neg hb, Option.none_or] at hsome
            rw [hcompared]
            exact h b w (hwritten ▸ hw) hsome
          simp only [ht]
          split
          case isTrue hpart =>
              have hzero : got = 0 := hall.resolve_right (htry ▸ hpart)
              refine ⟨fun _ b => hrest b (by omega), fun got' i' hpc' => ?_⟩
              rw [hadv.pc, hpcu] at hpc'
              cases hpc'
          case isFalse hwhole =>
              have hgood : ¬u.failed got = true := by
                intro hbad
                simp only [failed, Bool.and_eq_true, decide_eq_true_eq] at hbad
                omega
              have hct : (u.advance args .read got).currentlyTesting
                  = s.currentlyTesting + got := by
                rw [hadv.currentlyTesting, if_neg hgood, hpos]
              refine ⟨by simp, fun got' i' hpc' => ?_⟩
              cases hpc'
              simp only [hct, Nat.add_sub_cancel]
              refine ⟨fun b hb => hrest b (by omega), fun j _ hj w hw => ?_⟩
              rw [hadv.records, hwritten] at hw
              rw [hadv.buffer, hbuffer]
              exact hsame j hj w hw

theorem compareTurn_settling {got i : ℕ} (hok : s.Comparing args got i)
    (hdone : ∀ b < s.currentlyTesting - got + i, Settled s.records b)
    (hrest : ∀ j, i ≤ j → j < got → ∀ w,
      s.records.written (s.currentlyTesting - got + j) = some w →
        blockAt args s.buffer j = w) :
    (s.compareTurn args got i).Settling args := by
  have hle := hok.le
  unfold compareTurn
  split
  case isTrue hi =>
      refine ⟨fun _ b => ?_, nofun⟩
      by_cases hb : b < s.currentlyTesting
      · exact hdone b (by omega)
      · intro w _ hsome
        rw [hok.reading.covers.none_of_ge (Nat.le_of_not_lt hb)] at hsome
        cases hsome
  case isFalse hi =>
      have hlt : i < got := Decidable.not_not.mp hi
      have hblock : s.currentlyTesting + i - got = s.currentlyTesting - got + i := by
        omega
      have hsettled (b : ℕ) (hb : b < s.currentlyTesting - got + (i + 1)) :
          Settled { s.records with
            compared := Function.update s.records.compared
              (s.currentlyTesting + i - got) (some (blockAt args s.buffer i)) } b := by
        intro w hw hsome
        by_cases hbb : b = s.currentlyTesting + i - got
        · subst hbb
          have hsame := hrest i le_rfl hlt w (hblock ▸ hw)
          simp [hsame]
        · have hold := hdone b (by omega) w hw hsome
          exact (Function.update_of_ne hbb _ _).trans hold
      dsimp only
      split
      case isTrue =>
          split
          case isTrue =>
              refine ⟨by simp, fun got' i' hpc' => ?_⟩
              cases hpc'
              exact ⟨hsettled, fun j hj => hrest j (by omega)⟩
          case isFalse => exact ⟨by simp, nofun⟩
      case isFalse =>
          refine ⟨by simp, fun got' i' hpc' => ?_⟩
          cases hpc'
          exact ⟨hsettled, fun j hj => hrest j (by omega)⟩

theorem step_settling (hok : s.Ok args) (hcareful : s.Careful drive args)
    (h : s.Settling args) {t : TestRw δ}
    (hstep : s.step drive args = some t) : t.Settling args := by
  cases hpc : s.pc with
  | passHead =>
      simp only [step, hpc, Option.some.injEq] at hstep
      subst hstep
      unfold passHead
      split
      case isTrue => exact ⟨by simp, nofun⟩
      case isFalse => split <;> exact ⟨by simp, nofun⟩
  | writing =>
      simp only [step, hpc, Option.some.injEq] at hstep
      exact hstep ▸ writeTurn_settling hpc (hok.writing hpc)
  | reading =>
      simp only [step, hpc, Option.some.injEq] at hstep
      exact hstep ▸ readTurn_settling hcareful hpc (h.done (.inl hpc))
  | comparing got i =>
      simp only [step, hpc, Option.some.injEq] at hstep
      obtain ⟨hdone, hrest⟩ := h.comparing got i hpc
      exact hstep ▸ compareTurn_settling (hok.comparing got i hpc) hdone hrest
  | passDone =>
      simp only [step, hpc, Option.some.injEq] at hstep
      subst hstep
      exact ⟨by simp, nofun⟩
  | finished | aborted => simp [step, hpc] at hstep

end TestRw

/-- **What the test says of a pass.** At every point the count is the length of
the list, and the sum of the counters. At the end of a pass that was not
aborted every block was tried; and what the pass has added are exactly the
blocks that could not be written, that could not be read or that read back
other bytes than were written, if and only if every comparison of a block that
was not in the list says what it should. So it is in a run where every read
delivers all of its blocks or none, into a batch whose bytes in the buffer are
those that were written. -/
theorem testRw_accounting (drive : Drive δ) (args : TestArgs) :
    (∀ s, (testRw drive args).Reachable s →
      (s.found.bbCount = s.found.bbList.length ∧
        s.found.bbCount = s.found.numReadErrors + s.found.numWriteErrors
          + s.found.numCorruptionErrors) ∧
      (s.pc = .passDone →
        (∀ b, args.firstBlock ≤ b → b < args.lastBlock →
          ((s.records.written b).isSome ∨ s.records.writeFailed b = true) ∧
          ((s.records.readBack b).isSome ∨ s.records.readFailed b = true)) ∧
        ((∀ b, b ∈ s.found.bbList ↔ b ∈ s.records.before ∨ s.records.Bad b) ↔
          ∀ b, b ∉ s.records.before → s.records.Judged b))) ∧
    (∀ s, (testRw drive args).Through (TestRw.Careful drive args) s →
      s.pc = .passDone →
      ∀ b, b ∈ s.found.bbList ↔ b ∈ s.records.before ∨ s.records.Bad b) := by
  constructor
  · intro s hs
    have hok := testRw_ok hs
    refine ⟨⟨hok.accounted.length, hok.accounted.sum⟩, fun hpc => ?_⟩
    obtain ⟨hreading, hend⟩ := hok.passDone hpc
    exact ⟨fun b hfirst hlast => hreading.tried hend hfirst hlast,
      hreading.right_iff⟩
  · intro s hs hpc
    have hsettling : s.Settling args := by
      refine hs.invariant (I := TestRw.Settling args) (fun t ht => ?_)
        fun t _ u ht hcareful hsettling (hstep : t.step drive args = some u) =>
          TestRw.step_settling (testRw_ok ht) hcareful hsettling hstep
      have hpc' := ht.2.pc
      exact ⟨by simp [hpc'], by simp [hpc']⟩
    refine ((testRw_ok hs.reachable).passDone hpc).1.right_iff.mpr fun b _ => ?_
    exact (hsettling.done (.inr hpc) b).judged

/-- Two blocks of one byte, in one batch. -/
def twoBlocks (patternType nbPasses : ℕ) : TestArgs where
  lastBlock := 2
  blockSize := 1
  firstBlock := 0
  blocksAtOnce := 2
  patternType := patternType
  nbPasses := nbPasses
  detectFakes := false
  largeDrive := false
  idOffset := 0
  maxBb := 256

/-- A drive that takes every write, and answers reads by a script. -/
def scriptedDrive : Drive (List (List UInt8)) where
  write d _ bytes := (some (true, bytes.length), d)
  read
    | [], _, _ => (none, [])
    | bytes :: d, _, _ => (some bytes, d)
  cancelled _ := false

def TestRw.start (d : δ) : TestRw δ where
  drive := d
  found := ⟨[], 0, 0, 0, 0⟩
  patIdx := 0
  currentlyTesting := 0
  tryout := 0
  recoverBlock := none
  buffer := fun _ => 0
  readBuffer := fun _ => 0
  pc := .passHead
  records := .start []

theorem TestRw.start_reachable {drive : Drive δ} {args : TestArgs}
    (haccepted : args.accepted = true) (d : δ) :
    (testRw drive args).Reachable (.start d) :=
  .init ⟨haccepted, rfl, rfl, rfl, rfl⟩

/-- A drive that keeps what it is given, but of which the byte at 1 reads as 0. -/
def fadedDrive : Drive Memory where
  write d offset bytes := (some (true, bytes.length), blitList d offset bytes)
  read d offset size := (some (slice (Function.update d 1 0) offset size), d)
  cancelled _ := false

set_option synthInstance.maxSize 512 in
theorem testRw_accounting_faded :
    ∃ s, (testRw fadedDrive (twoBlocks 0 1)).Through
        (TestRw.Careful fadedDrive (twoBlocks 0 1)) s ∧ s.pc = .passDone ∧
      s.found.bbList = [1] ∧
      ∀ b, b ∈ s.found.bbList ↔ b ∈ s.records.before ∨ s.records.Bad b := by
  have hrun : ((testRw fadedDrive (twoBlocks 0 1)).run (.replicate 8 ())
      (.start fun _ => 0)).map (fun s => (s.pc, s.found.bbList))
      = some (.passDone, [1]) := by
    decide
  obtain ⟨s, hs, hall⟩ := Option.map_eq_some_iff.mp hrun
  obtain ⟨hpc, hlist⟩ := Prod.mk.inj hall
  have hthrough : (testRw fadedDrive (twoBlocks 0 1)).Through
      (TestRw.Careful fadedDrive (twoBlocks 0 1)) s := by
    refine System.Through.run (.init ?_) (by decide) hs
    exact ⟨rfl, rfl, rfl, rfl, rfl⟩
  exact ⟨s, hthrough, hpc, hlist, (testRw_accounting _ _).2 s hthrough hpc⟩

/-- A drive that keeps what it is given, but refuses the third write. -/
def flakyDrive : Drive (ℕ × Memory) where
  write d offset bytes :=
    if d.1 = 2 then (some (false, 0), (3, d.2))
    else (some (true, bytes.length), (d.1 + 1, blitList d.2 offset bytes))
  read d offset size := (some (slice d.2 offset size), d)
  cancelled _ := false

set_option synthInstance.maxSize 512 in
/-- A read that delivers one block of two, and not what was written to it: the
block is not compared. And blocks that were written one by one, all from the
front of the buffer, and read in a batch: the second one is compared with the
next bytes of a pattern of three, and is reported though it is as written. -/
theorem testRw_misjudges :
    (∃ s, (testRw scriptedDrive (twoBlocks 0 1)).Reachable s ∧ s.pc = .passDone ∧
      0 ∉ s.found.bbList ∧ s.records.Bad 0 ∧
      ¬∀ b, b ∈ s.found.bbList ↔ b ∈ s.records.before ∨ s.records.Bad b) ∧
    ∃ s, (testRw flakyDrive (twoBlocks 4 3)).Reachable s ∧ s.pc = .passDone ∧
      1 ∈ s.found.bbList ∧ s.records.written 1 = s.records.readBack 1 ∧
      ¬∀ b, b ∈ s.found.bbList ↔ b ∈ s.records.before ∨ s.records.Bad b := by
  have hskipped : ((testRw scriptedDrive (twoBlocks 0 1)).run (.replicate 8 ())
      (.start [[0x00], [0x55]])).map (fun s => (s.pc, s.records.before,
        s.found.bbList, s.records.written 0, s.records.readBack 0))
      = some (.passDone, [], [], some [0x55], some [0x00]) := by
    decide
  have hshifted : ((testRw flakyDrive (twoBlocks 4 3)).run (.replicate 28 ())
      (.start (0, fun _ => 0))).map (fun s => (s.pc, s.records.before,
        s.found.bbList, s.records.written 1, s.records.readBack 1))
      = some (.passDone, [], [1], some [0x1c], some [0x1c]) := by
    decide
  obtain ⟨s, hs, hall⟩ := Option.map_eq_some_iff.mp hskipped
  obtain ⟨t, ht, hall'⟩ := Option.map_eq_some_iff.mp hshifted
  simp only [Prod.mk.injEq] at hall hall'
  obtain ⟨hpc, hbefore, hlist, hwritten, hread⟩ := hall
  obtain ⟨hpc', hbefore', hlist', hwritten', hread'⟩ := hall'
  have hs' := (@TestRw.start_reachable _ _ (twoBlocks 0 1) rfl _).run hs
  have ht' := (@TestRw.start_reachable _ _ (twoBlocks 4 3) rfl _).run ht
  constructor
  · have hnot : 0 ∉ s.found.bbList := by simp [hlist]
    have hbad : s.records.Bad 0 :=
      .inr (.inr ⟨[0x55], [0x00], hwritten, hread, by decide⟩)
    exact ⟨s, hs', hpc, hnot, hbad, fun h => hnot ((h 0).mpr (.inr hbad))⟩
  · have hin : 1 ∈ t.found.bbList := by simp [hlist']
    refine ⟨t, ht', hpc', hin, hwritten'.trans hread'.symm, fun h => ?_⟩
    obtain ⟨upto, -, -, hcovers⟩ := ((testRw_ok ht').passDone hpc').1.written
    have hcovers' := ((testRw_ok ht').passDone hpc').1.covers
    rcases (h 1).mp hin with hold | hfailed | hfailed | ⟨w, x, hw, hx, hne⟩
    · simp [hbefore'] at hold
    · simp [hcovers.apart 1 hfailed] at hwritten'
    · simp [hcovers'.apart 1 hfailed] at hread'
    · rw [hwritten'] at hw
      rw [hread'] at hx
      exact hne (Option.some.inj (hx.symm.trans hw))

end Nawam
