import Nawam.Base.Align
import Nawam.Base.Ensures
import Nawam.Base.Memory

/-!
# Patching a drive

`read_data` and `write_data` of `ms-sys/file.c`, through which every boot
record is read and written. A drive takes whole sectors only, so the sectors
that cover the bytes in question are read into a buffer, and to write they are
written back from it with the new bytes in it.

`read_sectors` logs a read that fails or comes short, and returns the number
of bytes read all the same. What the callers take from the buffer beyond that
number is whatever was in it.
-/

namespace Nawam.MsSys

/-! ## Source -/

abbrev maxDataLen : ℕ := 65536

abbrev writeRetries : ℕ := 4

structure SectorBytes where
  val : ℕ
  ge : 512 ≤ val
  le : val ≤ 65536

def setBytesPerSector (value : ℕ) : SectorBytes :=
  if h : value < 512 ∨ 65536 < value then ⟨512, le_rfl, by decide⟩
  else ⟨value, by omega, by omega⟩

/-- The `FAKE_FD` and the globals beside it. -/
structure FakeFd where
  /-- `_offset` -/
  offset : ℕ
  /-- `ulBytesPerSector` -/
  sector : SectorBytes
  /-- `large_drive` -/
  large : Bool

structure ReadAnswer where
  /-- `_mm_malloc` of the buffer went through -/
  allocated : Bool
  /-- so did `SetFilePointerEx` -/
  seeks : Bool
  /-- the number of bytes `ReadFile` reports, with success or without -/
  size : ℕ
  /-- what is in the buffer behind them -/
  debris : Memory

/-- A `WriteFile` of `WriteFileWithRetry`. -/
structure WriteTry where
  /-- `ErrorStatus` is `ERROR_CANCELLED` before it -/
  cancelled : Bool
  succeeded : Bool
  written : ℕ
  /-- what is on the drive where it did not write all -/
  debris : Memory
  /-- it failed with `ERROR_DISK_FULL`, or was cancelled meanwhile -/
  final : Bool

structure WriteAnswer where
  /-- `SetFilePointerEx` went through -/
  seeks : Bool
  /-- so did the one that asks for the file pointer -/
  located : Bool
  tries : ℕ → WriteTry

/-- `SetFilePointerEx` from the beginning; the offset is a signed number. -/
def seek (goes : Bool) (offset : ℕ) : Bool := goes && offset < 2 ^ 63

/-- `read_sectors`, into a buffer of its callers. -/
def readSectors (r : ReadAnswer) (drive : Memory) (sectorSize start n : ℕ) :
    ℤ × Memory :=
  if 0xFFFFFFFF < n * sectorSize % 2 ^ 64 then (-1, r.debris)
  else
    let ptr := start * sectorSize % 2 ^ 64
    if seek r.seeks ptr = false then (-1, r.debris)
    -- an error, and a size that is not the one asked for, is only logged
    else (r.size, blit r.debris 0 drive ptr r.size)

/-- `WriteFileWithRetry` of `size` bytes at `ptr`, with so many tries left: the
number of bytes written where it returns `TRUE`. -/
def writeFileWithRetry (large : Bool) (tries : ℕ → WriteTry) (ptr : ℕ)
    (buf : Memory) (size : ℕ) : ℕ → Memory → Option ℕ × Memory
  | 0, drive => (none, drive)
  | left + 1, drive =>
      if (tries left).cancelled then (none, drive)
      else if (tries left).succeeded then
        if (tries left).written = size then (some size, blit drive ptr buf 0 size)
        else
          let drive := blit drive ptr (tries left).debris 0 size
          -- some large drives return 0, even though all was written
          if large ∧ (tries left).written = 0 then (some 0, drive)
          else writeFileWithRetry large tries ptr buf size left drive
      else
        let drive := blit drive ptr (tries left).debris 0 size
        if (tries left).final then (none, drive)
        else writeFileWithRetry large tries ptr buf size left drive

def writeSectors (large : Bool) (w : WriteAnswer) (drive : Memory)
    (sectorSize start n : ℕ) (buf : Memory) : ℤ × Memory :=
  let size := n * sectorSize % 2 ^ 64
  if 0xFFFFFFFF < size then (-1, drive)
  else
    let ptr := start * sectorSize % 2 ^ 64
    if seek w.seeks ptr = false then (-1, drive)
    else if w.located = false then (-1, drive)
    else
      match writeFileWithRetry large w.tries ptr buf size writeRetries drive with
      | (none, drive) => (-1, drive)
      | (some written, drive) =>
          if written ≠ size then
            if large ∧ written = 0 then (0, drive) else (-1, drive)
          else (written, drive)

namespace FakeFd

/-- `Position += fd->_offset` -/
def locate (fd : FakeFd) (position : ℕ) : ℕ := (position + fd.offset) % 2 ^ 64

def startSector (fd : FakeFd) (position : ℕ) : ℕ := position / fd.sector.val

/-- `EndSector - StartSector` of `len` bytes, `size_t` having 64 bits. -/
def numSectors (fd : FakeFd) (position len : ℕ) : ℕ :=
  let endSector := (position + len + fd.sector.val - 1) % 2 ^ 64 / fd.sector.val
  wrapSub 64 endSector (fd.startSector position)

end FakeFd

/-- `&aucBuf[Position - StartSector*ulBytesPerSector]`, with `len` bytes from
there on. -/
def bufferIndex (fd : FakeFd) (position startSector len : ℕ) : C ℕ := do
  let index := wrapSub 64 position (startSector * fd.sector.val % 2 ^ 64)
  if index + len ≤ maxDataLen then return index else .error .outOfBounds

/-- `read_data`: `some` of the bytes where it returns 1. -/
def readData (fd : FakeFd) (r : ReadAnswer) (drive : Memory) (position len : ℕ) :
    C (Option (List UInt8)) := do
  if r.allocated = false then return none
  else
    let position := fd.locate position
    let startSector := fd.startSector position
    let numSectors := fd.numSectors position len
    if maxDataLen < numSectors * fd.sector.val % 2 ^ 64 then return none
    else if 0xFFFFFFFF < len then return none
    else
      let read := readSectors r drive fd.sector.val startSector numSectors
      if read.1 ≤ 0 then return none
      else
        let index ← bufferIndex fd position startSector len
        return some (slice read.2 index len)

/-- `write_data`; `true` where it returns 1. -/
def writeData (fd : FakeFd) (r : ReadAnswer) (w : WriteAnswer) (drive : Memory)
    (position : ℕ) (data : List UInt8) : C (Bool × Memory) := do
  if r.allocated = false then return (false, drive)
  else
    let position := fd.locate position
    let startSector := fd.startSector position
    let numSectors := fd.numSectors position data.length
    if maxDataLen < numSectors * fd.sector.val % 2 ^ 64 then return (false, drive)
    else if 0xFFFFFFFF < data.length then return (false, drive)
    else
      let read := readSectors r drive fd.sector.val startSector numSectors
      if read.1 ≤ 0 then return (false, drive)
      else
        let index ← bufferIndex fd position startSector data.length
        let written := writeSectors fd.large w drive fd.sector.val startSector
          numSectors (blitList read.2 index data)
        return (0 < written.1, written.2)

/-! ## The sectors that cover a range -/

namespace FakeFd

def coverStart (fd : FakeFd) (position : ℕ) : ℕ :=
  floorAlign (fd.locate position) fd.sector.val

def coverStop (fd : FakeFd) (position len : ℕ) : ℕ :=
  ceilAlign (fd.locate position + len) fd.sector.val

variable {fd : FakeFd} {position len : ℕ}

theorem locate_lt (fd : FakeFd) (position : ℕ) : fd.locate position < 2 ^ 64 :=
  Nat.mod_lt _ (Nat.two_pow_pos 64)

theorem sector_pos (fd : FakeFd) : 0 < fd.sector.val :=
  lt_of_lt_of_le (by decide) fd.sector.ge

theorem coverStart_le (fd : FakeFd) (position : ℕ) :
    fd.coverStart position ≤ fd.locate position :=
  floorAlign_le _ _

theorem le_coverStop (fd : FakeFd) (position len : ℕ) :
    fd.locate position + len ≤ fd.coverStop position len :=
  le_ceilAlign _ fd.sector_pos

/-- A range the file pointer can be moved to. -/
structure InReach (fd : FakeFd) (position len : ℕ) : Prop where
  start_lt : fd.coverStart position < 2 ^ 63
  len_le : len ≤ 0xFFFFFFFF

/-- Where such a range starts and ends is computed without a wrap. -/
theorem InReach.sectors_eq (h : fd.InReach position len) :
    fd.startSector (fd.locate position) * fd.sector.val = fd.coverStart position ∧
    fd.numSectors (fd.locate position) len * fd.sector.val
      = fd.coverStop position len - fd.coverStart position := by
  have hlt := lt_floorAlign_add (fd.locate position) fd.sector_pos
  have hstart := h.start_lt
  have hlen := h.len_le
  have hsector := fd.sector.le
  have hpos := fd.sector_pos
  rw [coverStart] at hstart
  have hend : (fd.locate position + len + fd.sector.val - 1) % 2 ^ 64
      = fd.locate position + len + fd.sector.val - 1 := Nat.mod_eq_of_lt (by omega)
  have hle : fd.locate position / fd.sector.val
      ≤ (fd.locate position + len + fd.sector.val - 1) / fd.sector.val :=
    Nat.div_le_div_right (by omega)
  have hnum : (fd.locate position + len + fd.sector.val - 1) / fd.sector.val
      - fd.locate position / fd.sector.val < 2 ^ 64 :=
    lt_of_le_of_lt ((Nat.sub_le _ _).trans (Nat.div_le_self _ _)) (by omega)
  refine ⟨rfl, ?_⟩
  rw [numSectors, hend, startSector, wrapSub_of_le hle hnum, Nat.sub_mul]
  rfl

end FakeFd

/-! ## What the two functions share -/

/-- The bytes are read, `k` being told the sectors, the buffer and where in it
the range starts. -/
def withSectors {α : Type} (fd : FakeFd) (r : ReadAnswer) (drive : Memory)
    (position len : ℕ) (refused : C α) (k : ℕ → ℕ → Memory → ℕ → C α) : C α :=
  if r.allocated = false then refused
  else
    let position := fd.locate position
    let startSector := fd.startSector position
    let numSectors := fd.numSectors position len
    if maxDataLen < numSectors * fd.sector.val % 2 ^ 64 then refused
    else if 0xFFFFFFFF < len then refused
    else
      let read := readSectors r drive fd.sector.val startSector numSectors
      if read.1 ≤ 0 then refused
      else do
        let index ← bufferIndex fd position startSector len
        k startSector numSectors read.2 index

/-- The range is one that can be read, and something of it is. -/
structure ReadAnswer.Served (r : ReadAnswer) (fd : FakeFd) (position len : ℕ) :
    Prop extends fd.InReach position len where
  allocated : r.allocated = true
  seeks : r.seeks = true
  size_pos : 0 < r.size
  cover_le : fd.coverStop position len - fd.coverStart position ≤ maxDataLen

/-- The byte of the drive at `a` is in the buffer: it was read, or happened to
be there before. -/
def ReadAnswer.Delivers (r : ReadAnswer) (fd : FakeFd) (position : ℕ)
    (drive : Memory) (a : ℕ) : Prop :=
  a < fd.coverStart position + r.size ∨
    r.debris (a - fd.coverStart position) = drive a

section Shared

variable {α : Type} {fd : FakeFd} {r : ReadAnswer} {drive : Memory} {position len : ℕ}
  {refused : C α} {k : ℕ → ℕ → Memory → ℕ → C α}

def ReadAnswer.buffer (r : ReadAnswer) (fd : FakeFd) (position : ℕ)
    (drive : Memory) : Memory :=
  blit r.debris 0 drive (fd.coverStart position) r.size

/-- Which of its bytes are those of the drive. -/
theorem ReadAnswer.buffer_eq_iff {a : ℕ} (h : fd.coverStart position ≤ a) :
    r.buffer fd position drive (a - fd.coverStart position) = drive a ↔
      r.Delivers fd position drive a := by
  obtain ⟨i, rfl⟩ := Nat.exists_eq_add_of_le h
  rw [Nat.add_sub_cancel_left]
  rcases Nat.lt_or_ge i r.size with hin | hout
  · have hread : r.buffer fd position drive (0 + i) = drive (fd.coverStart position + i) :=
      blit_inside hin
    rw [Nat.zero_add] at hread
    exact iff_of_true hread (.inl (by omega))
  · have hold : r.buffer fd position drive i = r.debris i :=
      blit_outside (.inr (by omega))
    rw [hold, ReadAnswer.Delivers, Nat.add_sub_cancel_left, or_iff_right (by omega)]

/-- What is computed of the sectors of a range in reach, each in its word. -/
theorem FakeFd.InReach.words (h : fd.InReach position len) :
    fd.numSectors (fd.locate position) len * fd.sector.val % 2 ^ 64
      = fd.coverStop position len - fd.coverStart position ∧
    fd.startSector (fd.locate position) * fd.sector.val % 2 ^ 64
      = fd.coverStart position := by
  obtain ⟨hstart, hnum⟩ := h.sectors_eq
  have hlt := h.start_lt
  have hlen := h.len_le
  have hsector := fd.sector.le
  have hpos := lt_floorAlign_add (fd.locate position) fd.sector_pos
  have hceil := ceilAlign_lt (fd.locate position + len) fd.sector_pos
  rw [hstart, hnum]
  rw [FakeFd.coverStart] at *
  rw [FakeFd.coverStop]
  exact ⟨Nat.mod_eq_of_lt (by omega), Nat.mod_eq_of_lt (by omega)⟩

theorem bufferIndex_eq (h : fd.InReach position len)
    (hcover : fd.coverStop position len - fd.coverStart position ≤ maxDataLen) :
    bufferIndex fd (fd.locate position) (fd.startSector (fd.locate position)) len
      = .ok (fd.locate position - fd.coverStart position) := by
  have hle := fd.coverStart_le position
  have hstop := fd.le_coverStop position len
  have hindex : wrapSub 64 (fd.locate position)
      (fd.startSector (fd.locate position) * fd.sector.val % 2 ^ 64)
      = fd.locate position - fd.coverStart position := by
    rw [h.words.2]
    exact wrapSub_of_le hle (lt_of_le_of_lt (Nat.sub_le _ _) (fd.locate_lt position))
  have hfits : fd.locate position - fd.coverStart position + len ≤ maxDataLen := by omega
  simp only [bufferIndex, hindex, if_pos hfits, C.pure_eq]

theorem withSectors_served (h : r.Served fd position len) :
    withSectors fd r drive position len refused k =
      k (fd.startSector (fd.locate position)) (fd.numSectors (fd.locate position) len)
        (r.buffer fd position drive) (fd.locate position - fd.coverStart position) := by
  obtain ⟨hnum, hstart⟩ := h.words
  have hcover := h.cover_le
  have hlen := h.len_le
  have hsize := h.size_pos
  have hseek : seek r.seeks (fd.coverStart position) = true := by
    rw [seek, h.seeks, decide_eq_true h.start_lt]
    rfl
  have hmax : maxDataLen = 65536 := rfl
  have hbig : ¬0xFFFFFFFF < fd.coverStop position len - fd.coverStart position := by omega
  have hread : readSectors r drive fd.sector.val (fd.startSector (fd.locate position))
      (fd.numSectors (fd.locate position) len)
      = ((r.size : ℤ), r.buffer fd position drive) := by
    unfold readSectors
    simp only [hnum, hstart, if_neg hbig, hseek, Bool.true_eq_false, if_false]
    rfl
  have hgot : ¬(r.size : ℤ) ≤ 0 := by omega
  unfold withSectors
  simp only [h.allocated, hnum, hread, Bool.true_eq_false, if_false,
    if_neg (not_lt.mpr hcover), if_neg (not_lt.mpr hlen), if_neg hgot,
    bufferIndex_eq h.toInReach hcover, C.ok_bind]

theorem readSectors_pos {sectorSize start n : ℕ}
    (h : 0 < (readSectors r drive sectorSize start n).1) :
    r.seeks = true ∧ start * sectorSize % 2 ^ 64 < 2 ^ 63 ∧ 0 < r.size := by
  unfold readSectors at h
  split at h
  case isTrue => exact absurd h (show ¬(0 : ℤ) < -1 by decide)
  case isFalse =>
  dsimp only at h
  split at h
  case isTrue => exact absurd h (show ¬(0 : ℤ) < -1 by decide)
  case isFalse hseek =>
  have hseek := (Bool.not_eq_false _).mp hseek
  rw [seek, Bool.and_eq_true, decide_eq_true_eq] at hseek
  exact ⟨hseek.1, hseek.2, Int.natCast_pos.mp h⟩

theorem withSectors_refused (h : ¬r.Served fd position len) :
    withSectors fd r drive position len refused k = refused := by
  unfold withSectors
  split
  case isTrue => rfl
  case isFalse hallocated =>
  dsimp only
  split
  case isTrue => rfl
  case isFalse hcover =>
  split
  case isTrue => rfl
  case isFalse hlen =>
  split
  case isTrue => rfl
  case isFalse hread =>
  obtain ⟨hseeks, hstart, hsize⟩ := readSectors_pos (not_le.mp hread)
  have hexact : fd.startSector (fd.locate position) * fd.sector.val
      = fd.coverStart position := rfl
  rw [hexact, Nat.mod_eq_of_lt (lt_of_le_of_lt (fd.coverStart_le position)
    (fd.locate_lt position))] at hstart
  have hreach : fd.InReach position len := ⟨hstart, not_lt.mp hlen⟩
  refine absurd ⟨hreach, (Bool.not_eq_false _).mp hallocated, hseeks, hsize, ?_⟩ h
  rw [← hreach.words.1]
  exact not_lt.mp hcover

end Shared

/-! ## What is read -/

section Reading

variable {fd : FakeFd} {r : ReadAnswer} {drive : Memory} {position len : ℕ}

theorem readData_eq (fd : FakeFd) (r : ReadAnswer) (drive : Memory) (position len : ℕ) :
    readData fd r drive position len =
      withSectors fd r drive position len (.ok none)
        fun _ _ buf index => .ok (some (slice buf index len)) := rfl

/-- What is read is right exactly if each byte asked for is delivered. -/
theorem readData_exact_iff :
    (∀ out, readData fd r drive position len = .ok (some out) →
      out = slice drive (fd.locate position) len) ↔
    (r.Served fd position len → ∀ a, fd.locate position ≤ a →
      a < fd.locate position + len → r.Delivers fd position drive a) := by
  have hle := fd.coverStart_le position
  rw [readData_eq]
  by_cases h : r.Served fd position len
  · rw [withSectors_served h]
    simp only [Except.ok.injEq, Option.some.injEq, forall_eq', h, true_imp_iff]
    rw [slice_eq_iff]
    constructor
    · intro hall a ha hlt
      obtain ⟨k, rfl⟩ := Nat.exists_eq_add_of_le ha
      rw [← ReadAnswer.buffer_eq_iff (by omega), ← hall k (by omega)]
      congr 1
      omega
    · intro hall k hk
      have hat := hall (fd.locate position + k) (by omega) (by omega)
      rw [← ReadAnswer.buffer_eq_iff (by omega)] at hat
      rw [← hat]
      congr 1
      omega
  · rw [withSectors_refused h]
    exact iff_of_true nofun fun hserved => absurd hserved h

end Reading

/-! ## What is written -/

section Writing

variable {large : Bool} {tries : ℕ → WriteTry} {ptr size : ℕ} {buf : Memory}

/-- A try is not made, or writes all, or it is the last one or another one is made behind what
it has left on the drive. -/
theorem writeFileWithRetry_turn (left : ℕ) (drive : Memory) :
    writeFileWithRetry large tries ptr buf size (left + 1) drive = (none, drive) ∨
    writeFileWithRetry large tries ptr buf size (left + 1) drive =
      (some size, blit drive ptr buf 0 size) ∨
    ∃ debris, (∃ written, (written = none ∨ written = some 0) ∧
        writeFileWithRetry large tries ptr buf size (left + 1) drive =
          (written, blit drive ptr debris 0 size)) ∨
      writeFileWithRetry large tries ptr buf size (left + 1) drive =
        writeFileWithRetry large tries ptr buf size left (blit drive ptr debris 0 size) := by
  rw [writeFileWithRetry]
  split
  case isTrue => exact .inl rfl
  case isFalse =>
  split
  case isTrue =>
      split
      case isTrue => exact .inr (.inl rfl)
      case isFalse =>
      dsimp only
      split
      case isTrue => exact .inr (.inr ⟨_, .inl ⟨_, .inr rfl, rfl⟩⟩)
      case isFalse => exact .inr (.inr ⟨_, .inr rfl⟩)
  case isFalse =>
      dsimp only
      split
      case isTrue => exact .inr (.inr ⟨_, .inl ⟨_, .inl rfl, rfl⟩⟩)
      case isFalse => exact .inr (.inr ⟨_, .inr rfl⟩)

/-- No try changes anything but the bytes it is to write. -/
theorem writeFileWithRetry_frame {i : ℕ} (hi : i < ptr ∨ ptr + size ≤ i) :
    ∀ (left : ℕ) (drive : Memory),
      (writeFileWithRetry large tries ptr buf size left drive).2 i = drive i := by
  intro left
  induction left with
  | zero => exact fun _ => rfl
  | succ left ih =>
      intro drive
      obtain h | h | ⟨debris, ⟨written, -, h⟩ | h⟩ := writeFileWithRetry_turn left drive
      · rw [h]
      · rw [h]
        exact blit_outside hi
      · rw [h]
        exact blit_outside hi
      · rw [h]
        exact (ih _).trans (blit_outside hi)

/-- If all bytes were written, they are there, whatever the tries before left. -/
theorem writeFileWithRetry_all (hsize : 0 < size) :
    ∀ (left : ℕ) (drive : Memory),
      (writeFileWithRetry large tries ptr buf size left drive).1 = some size →
      (writeFileWithRetry large tries ptr buf size left drive).2
        = blit drive ptr buf 0 size := by
  intro left
  induction left with
  | zero => exact fun _ h => nomatch h
  | succ left ih =>
      intro drive hall
      obtain h | h | ⟨debris, ⟨written, hwritten, h⟩ | h⟩ := writeFileWithRetry_turn left drive
      · rw [h] at hall
        cases hall
      · rw [h]
      · rw [h] at hall
        -- neither nothing nor zero bytes are all of them
        rcases hwritten with rfl | rfl
        · cases hall
        · have hzero := Option.some.inj hall
          omega
      · rw [h] at hall ⊢
        rw [ih _ hall, blit_blit]

variable {w : WriteAnswer} {drive : Memory} {sectorSize start n : ℕ}

/-- Where the sectors are in words of their size. -/
theorem writeSectors_frame {i : ℕ}
    (hi : i < start * sectorSize % 2 ^ 64 ∨
      start * sectorSize % 2 ^ 64 + n * sectorSize % 2 ^ 64 ≤ i) :
    (writeSectors large w drive sectorSize start n buf).2 i = drive i := by
  have hframe : (writeFileWithRetry large w.tries (start * sectorSize % 2 ^ 64) buf
      (n * sectorSize % 2 ^ 64) writeRetries drive).2 i = drive i :=
    writeFileWithRetry_frame hi _ _
  unfold writeSectors
  dsimp only
  split
  case isTrue => rfl
  case isFalse =>
  split
  case isTrue => rfl
  case isFalse =>
  split
  case isTrue => rfl
  case isFalse =>
  split
  case h_1 drive' heq =>
      rw [heq] at hframe
      exact hframe
  case h_2 written drive' heq =>
      rw [heq] at hframe
      split
      case isTrue =>
          split
          case isTrue => exact hframe
          case isFalse => exact hframe
      case isFalse => exact hframe

/-- A positive result stands for all of the bytes. -/
theorem writeSectors_pos
    (h : 0 < (writeSectors large w drive sectorSize start n buf).1) :
    (writeSectors large w drive sectorSize start n buf).2
      = blit drive (start * sectorSize % 2 ^ 64) buf 0 (n * sectorSize % 2 ^ 64) := by
  have hall : 0 < n * sectorSize % 2 ^ 64 →
      (writeFileWithRetry large w.tries (start * sectorSize % 2 ^ 64) buf
        (n * sectorSize % 2 ^ 64) writeRetries drive).1 = some (n * sectorSize % 2 ^ 64) →
      _ := fun hsize => writeFileWithRetry_all hsize _ _
  unfold writeSectors at h ⊢
  dsimp only at h ⊢
  split at h
  case isTrue => exact absurd h (show ¬(0 : ℤ) < -1 by decide)
  case isFalse hbig =>
  rw [if_neg hbig]
  split at h
  case isTrue => exact absurd h (show ¬(0 : ℤ) < -1 by decide)
  case isFalse hseek =>
  rw [if_neg hseek]
  split at h
  case isTrue => exact absurd h (show ¬(0 : ℤ) < -1 by decide)
  case isFalse hlocated =>
  rw [if_neg hlocated]
  split at h
  case h_1 => exact absurd h (show ¬(0 : ℤ) < -1 by decide)
  case h_2 written drive' heq =>
      rw [heq] at hall
      dsimp only at h hall ⊢
      split at h
      case isTrue =>
          split at h
          case isTrue => exact absurd h (lt_irrefl _)
          case isFalse => exact absurd h (show ¬(0 : ℤ) < -1 by decide)
      case isFalse hsize =>
          have hsize := not_not.mp hsize
          rw [if_neg (not_not.mpr hsize)]
          rw [hsize] at h hall
          exact hall (Int.natCast_pos.mp h) rfl

/-- Answers with which all is written at once. -/
def promptWrite (size : ℕ) : WriteAnswer where
  seeks := true
  located := true
  tries := fun _ =>
    { cancelled := false, succeeded := true, written := size
      debris := fun _ => 0, final := false }

theorem writeFileWithRetry_prompt (large : Bool) (ptr size : ℕ) (buf drive : Memory) :
    writeFileWithRetry large (promptWrite size).tries ptr buf size writeRetries drive
      = (some size, blit drive ptr buf 0 size) := by
  simp [writeFileWithRetry, promptWrite]

theorem writeSectors_prompt {size : ℕ} (hn : n * sectorSize % 2 ^ 64 = size)
    (hsize : size ≤ 0xFFFFFFFF) (hstart : start * sectorSize % 2 ^ 64 < 2 ^ 63) :
    (writeSectors large (promptWrite size) drive sectorSize start n buf).1 = size := by
  have hseek : seek (promptWrite size).seeks (start * sectorSize % 2 ^ 64) = true := by
    rw [seek, decide_eq_true hstart]
    rfl
  have hlocated : (promptWrite size).located = true := rfl
  simp only [writeSectors, hn, if_neg (not_lt.mpr hsize), hseek, hlocated,
    writeFileWithRetry_prompt, Bool.true_eq_false, if_false, ne_eq, not_true_eq_false]

end Writing

/-- `write_data` is the shared part, followed by the write. -/
theorem writeData_eq (fd : FakeFd) (r : ReadAnswer) (w : WriteAnswer) (drive : Memory)
    (position : ℕ) (data : List UInt8) :
    writeData fd r w drive position data =
      withSectors fd r drive position data.length (.ok (false, drive))
        fun startSector numSectors buf index =>
          let written := writeSectors fd.large w drive fd.sector.val startSector
            numSectors (blitList buf index data)
          .ok (0 < written.1, written.2) := rfl

section Patching

variable {fd : FakeFd} {r : ReadAnswer} {w : WriteAnswer} {drive : Memory} {position : ℕ}
  {data : List UInt8}

/-- The drive with the data at its place. -/
abbrev patched (fd : FakeFd) (drive : Memory) (position : ℕ) (data : List UInt8) :
    Memory :=
  blitList drive (fd.locate position) data

def patchedBuffer (fd : FakeFd) (r : ReadAnswer) (drive : Memory) (position : ℕ)
    (data : List UInt8) : Memory :=
  blitList (r.buffer fd position drive) (fd.locate position - fd.coverStart position) data

def putBack (fd : FakeFd) (r : ReadAnswer) (w : WriteAnswer) (drive : Memory)
    (position : ℕ) (data : List UInt8) : ℤ × Memory :=
  writeSectors fd.large w drive fd.sector.val (fd.startSector (fd.locate position))
    (fd.numSectors (fd.locate position) data.length)
    (patchedBuffer fd r drive position data)

theorem writeData_served (w : WriteAnswer) (drive : Memory)
    (h : r.Served fd position data.length) :
    writeData fd r w drive position data =
      .ok (0 < (putBack fd r w drive position data).1,
        (putBack fd r w drive position data).2) := by
  rw [writeData_eq, withSectors_served h]
  rfl

theorem writeData_refused (h : ¬r.Served fd position data.length) :
    writeData fd r w drive position data = .ok (false, drive) := by
  rw [writeData_eq, withSectors_refused h]

/-- Nothing but the sectors that cover the range changes. -/
theorem writeData_frame {ok : Bool} {drive' : Memory}
    (h : writeData fd r w drive position data = .ok (ok, drive')) {i : ℕ}
    (hi : i < fd.coverStart position ∨ fd.coverStop position data.length ≤ i) :
    drive' i = drive i := by
  by_cases hserved : r.Served fd position data.length
  · rw [writeData_served _ _ hserved] at h
    obtain ⟨hnum, hstart⟩ := hserved.words
    have hle := fd.le_coverStop position data.length
    have hle' := fd.coverStart_le position
    rw [← (Prod.mk.inj (Except.ok.inj h)).2, putBack]
    exact writeSectors_frame (by omega)
  · rw [writeData_refused hserved] at h
    cases h
    rfl

/-- With answers of which nothing goes wrong the whole buffer is written. -/
theorem putBack_prompt (drive : Memory) (h : r.Served fd position data.length)
    (hcover : fd.coverStart position < fd.coverStop position data.length) :
    0 < (putBack fd r (promptWrite (fd.coverStop position data.length
      - fd.coverStart position)) drive position data).1 := by
  obtain ⟨hnum, hstart⟩ := h.words
  have hmax := h.cover_le
  have hle : fd.coverStop position data.length - fd.coverStart position ≤ 0xFFFFFFFF :=
    hmax.trans (by decide)
  rw [putBack, writeSectors_prompt hnum hle (by rw [hstart]; exact h.start_lt)]
  omega

/-- What the drive is like after the whole buffer was written. -/
theorem putBack_pos (h : r.Served fd position data.length)
    (hput : 0 < (putBack fd r w drive position data).1) :
    (putBack fd r w drive position data).2 =
      blit drive (fd.coverStart position) (patchedBuffer fd r drive position data) 0
        (fd.coverStop position data.length - fd.coverStart position) := by
  rw [putBack, writeSectors_pos hput, h.words.1, h.words.2]

/-- That is the patched drive exactly if each byte around the data is
delivered. -/
theorem blit_patchedBuffer_iff :
    blit drive (fd.coverStart position) (patchedBuffer fd r drive position data) 0
        (fd.coverStop position data.length - fd.coverStart position)
      = patched fd drive position data ↔
    ∀ a, fd.coverStart position ≤ a → a < fd.coverStop position data.length →
      (a < fd.locate position ∨ fd.locate position + data.length ≤ a) →
      r.Delivers fd position drive a := by
  have hle := fd.le_coverStop position data.length
  have hle' := fd.coverStart_le position
  -- a byte of the buffer, inside of the data and outside of them
  have hbyte : ∀ a, fd.coverStart position ≤ a →
      a < fd.coverStop position data.length →
      blit drive (fd.coverStart position) (patchedBuffer fd r drive position data) 0
        (fd.coverStop position data.length - fd.coverStart position) a
      = patchedBuffer fd r drive position data (a - fd.coverStart position) := by
    intro a ha hlt
    rw [blit, if_pos (by omega), Nat.zero_add]
  have hinside : ∀ a, fd.locate position ≤ a → a < fd.locate position + data.length →
      patchedBuffer fd r drive position data (a - fd.coverStart position)
      = patched fd drive position data a := by
    intro a ha hlt
    rw [patchedBuffer, patched, blitList, blit, if_pos (by omega), blitList, blit,
      if_pos (by omega)]
    congr 1
    omega
  have houtside : ∀ a, fd.coverStart position ≤ a →
      (a < fd.locate position ∨ fd.locate position + data.length ≤ a) →
      (patchedBuffer fd r drive position data (a - fd.coverStart position)
        = patched fd drive position data a ↔ r.Delivers fd position drive a) := by
    intro a ha hout
    rw [patchedBuffer, patched, blitList_outside _ (by omega), blitList_outside _ hout]
    exact ReadAnswer.buffer_eq_iff ha
  constructor
  · intro heq a ha hlt hout
    rw [← houtside a ha hout, ← hbyte a ha hlt, heq]
  · intro hall
    funext a
    by_cases hcover : fd.coverStart position ≤ a ∧ a < fd.coverStop position data.length
    · obtain ⟨ha, hlt⟩ := hcover
      rw [hbyte a ha hlt]
      by_cases hin : fd.locate position ≤ a ∧ a < fd.locate position + data.length
      · exact hinside a hin.1 hin.2
      · have hout : a < fd.locate position ∨ fd.locate position + data.length ≤ a := by
          omega
        exact (houtside a ha hout).mpr (hall a ha hlt hout)
    · rw [blit_outside (by omega), patched, blitList_outside _ (by omega)]

/-- What is written is right, whatever the tries come to, exactly if each byte
of the covering sectors around the data is delivered. -/
theorem writeData_exact_iff :
    (∀ w drive', writeData fd r w drive position data = .ok (true, drive') →
      drive' = patched fd drive position data) ↔
    (r.Served fd position data.length → ∀ a, fd.coverStart position ≤ a →
      a < fd.coverStop position data.length →
      (a < fd.locate position ∨ fd.locate position + data.length ≤ a) →
      r.Delivers fd position drive a) := by
  by_cases h : r.Served fd position data.length
  · constructor
    · intro hexact _ a ha hlt
      have hput := putBack_prompt drive h (by omega)
      have hrun := writeData_served (promptWrite (fd.coverStop position data.length
        - fd.coverStart position)) drive h
      rw [decide_eq_true hput] at hrun
      have hdrive := hexact _ _ hrun
      rw [putBack_pos h hput, blit_patchedBuffer_iff] at hdrive
      exact hdrive a ha hlt
    · intro hall w drive' hrun
      rw [writeData_served _ _ h] at hrun
      obtain ⟨hput, hdrive⟩ := Prod.mk.inj (Except.ok.inj hrun)
      rw [← hdrive, putBack_pos h (of_decide_eq_true hput)]
      exact blit_patchedBuffer_iff.mpr (hall h)
  · refine iff_of_true (fun w drive' hrun => ?_) fun hserved => absurd hserved h
    rw [writeData_refused h] at hrun
    cases hrun

def wholeRead : ReadAnswer := ⟨true, true, maxDataLen, fun _ => 0⟩

theorem wholeRead_served (h : fd.InReach position data.length)
    (hcover : fd.coverStop position data.length - fd.coverStart position ≤ maxDataLen) :
    wholeRead.Served fd position data.length :=
  ⟨h, rfl, rfl, (by decide : 0 < maxDataLen), hcover⟩

/-- Answers with which a range is patched without a disturbance. -/
def promptAnswers (fd : FakeFd) (position len : ℕ) : ReadAnswer × WriteAnswer :=
  (wholeRead, promptWrite (fd.coverStop position len - fd.coverStart position))

/-- Where all of the covering sectors is read, the drive comes out patched. -/
theorem writeData_prompt (drive : Memory) (h : fd.InReach position data.length)
    (hpos : fd.coverStart position < fd.coverStop position data.length)
    (hcover : fd.coverStop position data.length - fd.coverStart position ≤ maxDataLen) :
    writeData fd (promptAnswers fd position data.length).1
        (promptAnswers fd position data.length).2 drive position data
      = .ok (true, patched fd drive position data) := by
  have hserved : (promptAnswers fd position data.length).1.Served fd position data.length :=
    wholeRead_served h hcover
  have hput : 0 < (putBack fd _ (promptAnswers fd position data.length).2 drive
      position data).1 := putBack_prompt drive hserved hpos
  have hexact : blit drive (fd.coverStart position)
      (patchedBuffer fd (promptAnswers fd position data.length).1 drive position data) 0
      (fd.coverStop position data.length - fd.coverStart position)
      = patched fd drive position data := by
    refine blit_patchedBuffer_iff.mpr fun a ha hlt _ => .inl ?_
    show a < fd.coverStart position + maxDataLen
    omega
  rw [writeData_served _ _ hserved, decide_eq_true hput, putBack_pos hserved hput, hexact]

/-- A write that fails and leaves ones. -/
def failedWrite : WriteAnswer where
  seeks := true
  located := true
  tries := fun _ =>
    { cancelled := false, succeeded := false, written := 0
      debris := fun _ => 1, final := true }

/-- Where it fails, all of the covering sectors can be lost. -/
theorem writeData_failed (drive : Memory) (h : fd.InReach position data.length)
    (hcover : fd.coverStop position data.length - fd.coverStart position ≤ maxDataLen) :
    writeData fd wholeRead failedWrite drive position data
      = .ok (false, blit drive (fd.coverStart position) (fun _ => 1) 0
          (fd.coverStop position data.length - fd.coverStart position)) := by
  have hserved := wholeRead_served h hcover
  obtain ⟨hnum, hstart⟩ := h.words
  have hsize : fd.coverStop position data.length - fd.coverStart position ≤ 0xFFFFFFFF :=
    hcover.trans (by decide)
  have hseek : seek failedWrite.seeks (fd.coverStart position) = true := by
    rw [seek, decide_eq_true h.start_lt]
    rfl
  have hlocated : failedWrite.located = true := rfl
  have hretry : ∀ (ptr size : ℕ) (buf : Memory),
      writeFileWithRetry fd.large failedWrite.tries ptr buf size writeRetries drive
        = (none, blit drive ptr (fun _ => 1) 0 size) := by
    intro ptr size buf
    simp [writeFileWithRetry, failedWrite]
  have hput : putBack fd wholeRead failedWrite drive position data
      = (-1, blit drive (fd.coverStart position) (fun _ => 1) 0
          (fd.coverStop position data.length - fd.coverStart position)) := by
    rw [putBack]
    simp only [writeSectors, hnum, hstart, if_neg (not_lt.mpr hsize), hseek, hlocated,
      hretry, Bool.true_eq_false, if_false]
  rw [writeData_served _ _ hserved, hput]
  rfl

end Patching

/-! ## Both functions -/

/-- **When patching is exact.** Whatever the answers to the writes, and
however many tries they take: if `write_data` returns 1, the data and nothing
else are new on the drive, exactly unless a byte of the covering sectors
around the data was not delivered. And if `read_data` returns 1, its bytes are
those of the drive, exactly unless one of them was not delivered. -/
theorem patching_exact_iff (fd : FakeFd) (r : ReadAnswer) (drive : Memory)
    (position len : ℕ) (data : List UInt8) :
    ((∀ w drive', writeData fd r w drive position data = .ok (true, drive') →
        drive' = patched fd drive position data) ↔
      (r.Served fd position data.length → ∀ a, fd.coverStart position ≤ a →
        a < fd.coverStop position data.length →
        (a < fd.locate position ∨ fd.locate position + data.length ≤ a) →
        r.Delivers fd position drive a)) ∧
    ((∀ out, readData fd r drive position len = .ok (some out) →
        out = slice drive (fd.locate position) len) ↔
      (r.Served fd position len → ∀ a, fd.locate position ≤ a →
        a < fd.locate position + len → r.Delivers fd position drive a)) :=
  ⟨writeData_exact_iff, readData_exact_iff⟩

/-- Two bytes on either side of a sector boundary, of whose two sectors only
the first one is read: the second one is overwritten with what was in the
buffer. -/
theorem patching_inexact : ¬∀ (fd : FakeFd) (r : ReadAnswer) (drive : Memory)
    (position : ℕ) (data : List UInt8) (w : WriteAnswer) (drive' : Memory),
    writeData fd r w drive position data = .ok (true, drive') →
    drive' = patched fd drive position data := by
  intro h
  have hserved : ReadAnswer.Served ⟨true, true, 512, fun _ => 7⟩
      ⟨0, setBytesPerSector 512, false⟩ 511 2 :=
    ⟨⟨by decide, by decide⟩, rfl, rfl, by decide, by decide⟩
  have hdelivers := writeData_exact_iff.mp
    (h ⟨0, setBytesPerSector 512, false⟩ ⟨true, true, 512, fun _ => 7⟩ (fun _ => 0) 511 [1, 2])
    hserved 1000 (by decide) (by decide) (.inr (by decide))
  rcases hdelivers with hread | hbefore
  · exact absurd hread (by decide)
  · exact absurd hbefore (by decide)

end Nawam.MsSys
