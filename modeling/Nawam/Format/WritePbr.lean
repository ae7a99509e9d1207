import Nawam.Format.GptMessage

/-!
# Partition boot records

`WritePBR` of `format.c`: for the file system at hand, each boot sector is
confirmed, written and has its drive id patched. The `break`s of the FAT16 and
NTFS branches leave the `switch`, for the end where `ErrorStatus` is set and
`FALSE` returned. Those of the FAT32 branch stand in a `for` loop over the
primary and the backup boot sector, and leave that, for a `return TRUE`.
-/

namespace Nawam

open MsSys (BootType)

/-! ## Source -/

inductive FsType where
  | unknown
  | fat16
  | fat32
  | ntfs
  | udf
  | exfat
  | refs
  | ext2
  | ext3
  | ext4
deriving DecidableEq, Repr

inductive PbrCall where
  | isFat16Fs
  | writeFat16FdBr
  | writeFat16RosBr
  | writeFat16Br
  | writeDriveIdFat16
  | isFat32Fs
  | writeFat32FdBr
  | writeFat32RosBr
  | writeFat32KosBr
  | writeFat32PeBr
  | writeFat32NtBr
  | writeFat32Br
  | writeDriveIdFat32
  | isNtfsFs
  | writeNtfsBr
deriving DecidableEq, Repr

structure PbrJob where
  /-- `actual_fs_type` -/
  fs : FsType
  bootType : BootType
  /-- `SelectedDrive.SectorSize` -/
  sectorSize : ℕ
  /-- `img_report` -/
  hasKolibrios : Bool
  hasBootmgr : Bool
  hasWinpe : Bool

/-- How each call comes out for the first (0) and the second (1) boot
sector. -/
abbrev PbrAnswers : Type := ℕ → PbrCall → Bool

/-- A call that was made: for which boot sector, at which `_offset` of the
`fake_fd`, and whether it succeeded. -/
structure PbrRecord where
  sector : ℕ
  offset : ℕ
  call : PbrCall
  ok : Bool
deriving DecidableEq, Repr

structure PbrRun where
  /-- `fake_fd._offset` -/
  offset : ℕ
  calls : List PbrRecord
  /-- `ErrorStatus` was set to `ERROR_WRITE_FAULT` -/
  writeFault : Bool

def PbrRun.attempt (answers : PbrAnswers) (sector : ℕ) (call : PbrCall) (s : PbrRun) :
    Bool × PbrRun :=
  (answers sector call,
    { s with calls := s.calls ++ [⟨sector, s.offset, call, answers sector call⟩] })

namespace PbrJob

/-- Which FAT16 boot record is written; there is none for KolibriOS. -/
def fat16Writer (job : PbrJob) : Option PbrCall :=
  if job.bootType = .freedos then some .writeFat16FdBr
  else if job.bootType = .reactos then some .writeFat16RosBr
  else if job.bootType = .image ∧ job.hasKolibrios then none
  else some .writeFat16Br

def fat32Writer (job : PbrJob) : PbrCall :=
  if job.bootType = .freedos then .writeFat32FdBr
  else if job.bootType = .reactos then .writeFat32RosBr
  else if job.bootType = .image ∧ job.hasKolibrios then .writeFat32KosBr
  else if job.bootType = .image ∧ job.hasBootmgr then .writeFat32PeBr
  else if job.bootType = .image ∧ job.hasWinpe then .writeFat32NtBr
  else .writeFat32Br

/-- The FAT16 branch; `false` is a `break`. -/
def fat16Branch (job : PbrJob) (answers : PbrAnswers) (s : PbrRun) : Bool × PbrRun :=
  let (confirmed, s) := s.attempt answers 0 .isFat16Fs
  if confirmed = false then (false, s)
  else
    match job.fat16Writer with
    | none => (false, s)
    | some writer =>
        let (written, s) := s.attempt answers 0 writer
        if written = false then (false, s)
        else s.attempt answers 0 .writeDriveIdFat16

/-- A turn of the FAT32 loop; `false` is a `break`. -/
def fat32Turn (job : PbrJob) (answers : PbrAnswers) (i : ℕ) (s : PbrRun) :
    Bool × PbrRun :=
  let (confirmed, s) := s.attempt answers i .isFat32Fs
  if confirmed = false then (false, s)
  else
    let (written, s) := s.attempt answers i job.fat32Writer
    if written = false then (false, s)
    else
      let (patched, s) := s.attempt answers i .writeDriveIdFat32
      if patched = false then (false, s)
      else (true, { s with offset := s.offset + 6 * job.sectorSize % 2 ^ 32 })

/-- The FAT32 loop from `i` on, with so many turns left. -/
def fat32Loop (job : PbrJob) (answers : PbrAnswers) : ℕ → ℕ → PbrRun → PbrRun
  | 0, _, s => s
  | left + 1, i, s =>
      let (goes, s) := job.fat32Turn answers i s
      if goes then job.fat32Loop answers left (i + 1) s else s

def ntfsBranch (answers : PbrAnswers) (s : PbrRun) : Bool × PbrRun :=
  let (confirmed, s) := s.attempt answers 0 .isNtfsFs
  if confirmed = false then (false, s) else s.attempt answers 0 .writeNtfsBr

/-- The `switch`; `false` goes on behind it. -/
def pbrSwitch (job : PbrJob) (answers : PbrAnswers) (s : PbrRun) : Bool × PbrRun :=
  match job.fs with
  | .fat16 => job.fat16Branch answers s
  -- a `break` leaves the loop, and what follows the loop is a `return TRUE`
  | .fat32 => (true, job.fat32Loop answers 2 0 s)
  | .ntfs => ntfsBranch answers s
  | .ext2 => (true, s)
  | .ext3 => (true, s)
  | .ext4 => (true, s)
  | _ => (false, s)

def writePbr (job : PbrJob) (answers : PbrAnswers) : Bool × PbrRun :=
  let (returned, s) := job.pbrSwitch answers ⟨0, [], false⟩
  if returned then (true, s) else (false, { s with writeFault := true })

end PbrJob

/-! ## What has to be done -/

/-- What is to be done about a boot sector. -/
inductive Stage where
  | confirm
  | write
  | patch
deriving DecidableEq, Repr

def PbrCall.stage : PbrCall → Stage
  | .isFat16Fs | .isFat32Fs | .isNtfsFs => .confirm
  | .writeDriveIdFat16 | .writeDriveIdFat32 => .patch
  | _ => .write

namespace FsType

/-- The boot sectors of a file system, of FAT32 the primary and the backup
one. -/
def bootSectors : FsType → List ℕ
  | .fat16 | .ntfs => [0]
  | .fat32 => [0, 1]
  | _ => []

/-- What is to be done about each; NTFS has no drive id to be patched. -/
def stages : FsType → List Stage
  | .fat16 | .fat32 => [.confirm, .write, .patch]
  | .ntfs => [.confirm, .write]
  | _ => []

end FsType

/-- All was done about all boot sectors, with success, the backup one being
six sectors in. -/
def PbrJob.AllDone (job : PbrJob) (calls : List PbrRecord) : Prop :=
  ∀ sector ∈ job.fs.bootSectors, ∀ stage ∈ job.fs.stages,
    ∃ record ∈ calls, record.sector = sector ∧ record.call.stage = stage ∧
      record.offset = sector * (6 * job.sectorSize % 2 ^ 32) ∧ record.ok = true

/-- The result tells the truth: `TRUE` only if all was done, and `FALSE` with
`ErrorStatus` set. -/
def PbrJob.Truthful (job : PbrJob) (answers : PbrAnswers) : Prop :=
  ((job.writePbr answers).1 = true → job.AllDone (job.writePbr answers).2.calls) ∧
  ((job.writePbr answers).1 = false → (job.writePbr answers).2.writeFault = true)

/-! ## The FAT32 loop -/

namespace PbrJob

variable {job : PbrJob} {answers : PbrAnswers} {i : ℕ} {s : PbrRun}

theorem fat32Writer_stage (job : PbrJob) : job.fat32Writer.stage = .write := by
  unfold fat32Writer
  split_ifs <;> rfl

theorem fat16Writer_stage {writer : PbrCall} (h : job.fat16Writer = some writer) :
    writer.stage = .write := by
  unfold fat16Writer at h
  split_ifs at h <;> cases h <;> rfl

def fat32Calls (job : PbrJob) : List PbrCall :=
  [.isFat32Fs, job.fat32Writer, .writeDriveIdFat32]

/-- The records are those of calls of the loop, as they were answered. -/
def Recorded (job : PbrJob) (answers : PbrAnswers) (calls : List PbrRecord) : Prop :=
  ∀ record ∈ calls, record.call ∈ job.fat32Calls ∧
    record.ok = answers record.sector record.call

theorem Recorded.attempt {c : PbrCall} (h : job.Recorded answers s.calls) (i : ℕ)
    (hc : c ∈ job.fat32Calls) :
    job.Recorded answers (s.attempt answers i c).2.calls := by
  intro record hrecord
  rcases List.mem_append.mp hrecord with hold | hnew
  · exact h record hold
  · rw [List.mem_singleton.mp hnew]
    exact ⟨hc, rfl⟩

theorem fat32Turn_recorded (h : job.Recorded answers s.calls) :
    job.Recorded answers (job.fat32Turn answers i s).2.calls := by
  have h₁ := h.attempt i (c := .isFat32Fs) (by simp [fat32Calls])
  have h₂ := h₁.attempt i (c := job.fat32Writer) (by simp [fat32Calls])
  have h₃ := h₂.attempt i (c := .writeDriveIdFat32) (by simp [fat32Calls])
  unfold fat32Turn
  dsimp only
  split
  case isTrue => exact h₁
  case isFalse =>
  split
  case isTrue => exact h₂
  case isFalse =>
  split
  case isTrue => exact h₃
  case isFalse => exact h₃

theorem fat32Loop_recorded : ∀ (left i : ℕ) (s : PbrRun),
    job.Recorded answers s.calls → job.Recorded answers (job.fat32Loop answers left i s).calls := by
  intro left
  induction left with
  | zero => exact fun _ _ h => h
  | succ left ih =>
      intro i s h
      have hturn := fat32Turn_recorded (i := i) h
      rw [fat32Loop]
      dsimp only
      split
      case isTrue => exact ih (i + 1) _ hturn
      case isFalse => exact hturn

/-- The stage of a call of the loop says which one it is. -/
theorem stage_inj {c d : PbrCall} (hc : c ∈ job.fat32Calls) (hd : d ∈ job.fat32Calls)
    (h : c.stage = d.stage) : c = d := by
  have hwriter := job.fat32Writer_stage
  simp only [fat32Calls, List.mem_cons, List.not_mem_nil, or_false] at hc hd
  rcases hc with rfl | rfl | rfl <;> rcases hd with rfl | rfl | rfl <;>
    simp_all [PbrCall.stage]

/-! ## The single branches -/

theorem fat32Turn_ok (hall : ∀ c ∈ job.fat32Calls, answers i c = true) :
    job.fat32Turn answers i s =
      (true, { s with
        offset := s.offset + 6 * job.sectorSize % 2 ^ 32
        calls := s.calls ++ job.fat32Calls.map fun c => ⟨i, s.offset, c, true⟩ }) := by
  have hconfirm : answers i .isFat32Fs = true := hall _ (by simp [fat32Calls])
  have hwrite : answers i job.fat32Writer = true := hall _ (by simp [fat32Calls])
  have hpatch : answers i .writeDriveIdFat32 = true := hall _ (by simp [fat32Calls])
  simp [fat32Turn, PbrRun.attempt, fat32Calls, hconfirm, hwrite, hpatch]

/-- Two turns that go well have done all. -/
theorem fat32Loop_allDone (hfs : job.fs = .fat32)
    (hall : ∀ i < 2, ∀ c ∈ job.fat32Calls, answers i c = true) :
    job.AllDone (job.fat32Loop answers 2 0 ⟨0, [], false⟩).calls := by
  have hstages : ∀ stage ∈ job.fs.stages, ∃ c ∈ job.fat32Calls, c.stage = stage := by
    intro stage hstage
    rw [hfs] at hstage
    cases stage with
    | confirm => exact ⟨.isFat32Fs, by simp [fat32Calls], rfl⟩
    | write => exact ⟨job.fat32Writer, by simp [fat32Calls], job.fat32Writer_stage⟩
    | patch => exact ⟨.writeDriveIdFat32, by simp [fat32Calls], rfl⟩
  have hrun : (job.fat32Loop answers 2 0 ⟨0, [], false⟩).calls =
      (job.fat32Calls.map fun c => ⟨0, 0, c, true⟩) ++
        job.fat32Calls.map fun c => ⟨1, 6 * job.sectorSize % 2 ^ 32, c, true⟩ := by
    simp [fat32Loop, fat32Turn_ok (hall 0 (by decide)), fat32Turn_ok (hall 1 (by decide))]
  intro sector hsector stage hstage
  obtain ⟨c, hc, rfl⟩ := hstages stage hstage
  rw [hrun]
  rw [hfs] at hsector
  rcases List.mem_pair.mp hsector with rfl | rfl
  · exact ⟨_, List.mem_append_left _ (List.mem_map_of_mem hc), rfl, rfl, by simp, rfl⟩
  · exact ⟨_, List.mem_append_right _ (List.mem_map_of_mem hc), rfl, rfl, by simp, rfl⟩

/-- The `break`s of the FAT16 branch lead to the error. -/
theorem fat16Branch_allDone (hfs : job.fs = .fat16)
    (h : (job.fat16Branch answers ⟨0, [], false⟩).1 = true) :
    job.AllDone (job.fat16Branch answers ⟨0, [], false⟩).2.calls := by
  cases hconfirm : answers 0 .isFat16Fs with
  | false => simp [fat16Branch, PbrRun.attempt, hconfirm] at h
  | true =>
    cases hwriter : job.fat16Writer with
    | none => simp [fat16Branch, PbrRun.attempt, hconfirm, hwriter] at h
    | some writer =>
      cases hwrite : answers 0 writer with
      | false => simp [fat16Branch, PbrRun.attempt, hconfirm, hwriter, hwrite] at h
      | true =>
        have hpatch : answers 0 .writeDriveIdFat16 = true := by
          simpa [fat16Branch, PbrRun.attempt, hconfirm, hwriter, hwrite] using h
        have hfirst : PbrCall.isFat16Fs.stage = .confirm := rfl
        have hlast : PbrCall.writeDriveIdFat16.stage = .patch := rfl
        have hstage := fat16Writer_stage hwriter
        simp [AllDone, hfs, FsType.bootSectors, FsType.stages, fat16Branch, PbrRun.attempt,
          hconfirm, hwriter, hwrite, hpatch, hfirst, hstage, hlast]

theorem ntfsBranch_allDone (hfs : job.fs = .ntfs)
    (h : (ntfsBranch answers ⟨0, [], false⟩).1 = true) :
    job.AllDone (ntfsBranch answers ⟨0, [], false⟩).2.calls := by
  cases hconfirm : answers 0 .isNtfsFs with
  | false => simp [ntfsBranch, PbrRun.attempt, hconfirm] at h
  | true =>
    have hwrite : answers 0 .writeNtfsBr = true := by
      simpa [ntfsBranch, PbrRun.attempt, hconfirm] using h
    simp [AllDone, hfs, FsType.bootSectors, FsType.stages, ntfsBranch, PbrRun.attempt,
      PbrCall.stage, hconfirm, hwrite]

/-! ## The result -/

/-- What is left of the statement once the error path is dealt with. -/
theorem truthful_iff : job.Truthful answers ↔
    ((job.pbrSwitch answers ⟨0, [], false⟩).1 = true →
      job.AllDone (job.pbrSwitch answers ⟨0, [], false⟩).2.calls) := by
  unfold Truthful writePbr
  cases hreturned : (job.pbrSwitch answers ⟨0, [], false⟩).1 <;> simp [hreturned]

/-- The loop that did all had all its calls succeed. -/
theorem answered_of_allDone (hfs : job.fs = .fat32)
    (h : job.AllDone (job.fat32Loop answers 2 0 ⟨0, [], false⟩).calls) :
    ∀ i < 2, ∀ c ∈ job.fat32Calls, answers i c = true := by
  intro i hi c hc
  have hsector : i ∈ job.fs.bootSectors := by
    rw [hfs]
    rcases Nat.le_one_iff_eq_zero_or_eq_one.mp (Nat.lt_succ_iff.mp hi) with rfl | rfl <;> decide
  have hstage : c.stage ∈ job.fs.stages := by
    rw [hfs]
    cases c.stage <;> decide
  obtain ⟨record, hrecord, rfl, hof, -, hok⟩ := h i hsector c.stage hstage
  obtain ⟨hcall, hanswer⟩ := job.fat32Loop_recorded 2 0 ⟨0, [], false⟩
    (fun _ hnone => absurd hnone List.not_mem_nil) record hrecord
  rw [← stage_inj hcall hc hof, ← hanswer, hok]

/-- `TRUE` is returned for what was done and nothing else, unless the file
system is FAT32: there the result is `TRUE` whatever happens, and so it is the
truth only if every check, write and patch of both boot sectors succeeds. -/
theorem writePbr_truthful_iff (job : PbrJob) (answers : PbrAnswers) :
    job.Truthful answers ↔
      (job.fs = .fat32 → ∀ i < 2, ∀ c ∈ job.fat32Calls, answers i c = true) := by
  rw [truthful_iff]
  cases hfs : job.fs with
  | fat32 =>
    simp only [pbrSwitch, hfs, true_implies]
    exact ⟨answered_of_allDone hfs, fat32Loop_allDone hfs⟩
  | fat16 => simpa [pbrSwitch, hfs] using fat16Branch_allDone hfs
  | ntfs => simpa [pbrSwitch, hfs] using ntfsBranch_allDone hfs
  | ext2 | ext3 | ext4 => simp [AllDone, hfs, FsType.bootSectors]
  | unknown | udf | exfat | refs => simp [pbrSwitch, hfs]

/-- A primary sector that is not a FAT32 one: nothing is written, and the
result is `TRUE`. -/
theorem writePbr_untruthful :
    ∃ (job : PbrJob) (answers : PbrAnswers),
      (job.writePbr answers).1 = true ∧
      (job.writePbr answers).2.calls = [⟨0, 0, .isFat32Fs, false⟩] ∧
      ¬ job.Truthful answers := by
  refine ⟨⟨.fat32, .image, 512, false, false, false⟩, fun _ _ => false, by decide, by decide, ?_⟩
  rintro ⟨htrue, -⟩
  obtain ⟨record, hrecord, -, -, -, hok⟩ := htrue (by decide) 0 (by decide) .confirm (by decide)
  rcases List.mem_singleton.mp hrecord with rfl
  cases hok

end PbrJob

end Nawam
