import Nawam.Format.MsSysFile

/-!
# The boot message and the primary GPT

What `WriteMBR` and `WriteSBR` of `format.c` put on a drive whose partition
scheme is GPT: a protective MBR that shows a message when a legacy BIOS boots
the drive, and the text of the message behind the primary GPT. The MBR looks
for the text from LBA 34 on, the GPT is two sectors and 128 entries of 128
bytes long, and the text is written at byte 17408, which is where either of
them says only if sectors have 512 bytes.
-/

namespace Nawam.MsSys

/-! ## Source -/

def mbrMsgRufus : List UInt8 :=
  [0x41, 0x4B, 0x45, 0x4F, 0xFC, 0x31, 0xC0, 0xFA, 0x8E, 0xD0, 0xBC, 0x00,
   0x7C, 0xFB, 0x8E, 0xD8, 0xBB, 0x13, 0x04, 0x8B, 0x07, 0x83, 0xE8, 0x04,
   0x89, 0x07, 0xC1, 0xE0, 0x06, 0x8E, 0xC0, 0xB8, 0x03, 0x00, 0xCD, 0x10,
   0xB4, 0x02, 0xCD, 0x10, 0xB4, 0x41, 0xBB, 0xAA, 0x55, 0x31, 0xC9, 0x31,
   0xD2, 0xCD, 0x13, 0x72, 0x27, 0x81, 0xFB, 0x55, 0xAA, 0x75, 0x21, 0xF7,
   0xC1, 0x01, 0x00, 0x74, 0x1B, 0x66, 0x31, 0xC0, 0x66, 0x50, 0x6A, 0x22,
   0x06, 0x66, 0x50, 0x6A, 0x08, 0x6A, 0x10, 0x89, 0xE6, 0xB4, 0x42, 0xCD,
   0x13, 0x9F, 0x83, 0xC4, 0x10, 0x9E, 0xEB, 0x0D, 0xB8, 0x08, 0x02, 0xB9,
   0x23, 0x00, 0xBA, 0x80, 0x00, 0x31, 0xDB, 0xCD, 0x13, 0xBB, 0x07, 0x00,
   0x72, 0x0B, 0x31, 0xF6, 0x8C, 0xC0, 0x8E, 0xD8, 0xE8, 0x3F, 0x00, 0xEB,
   0x06, 0xBE, 0x0B, 0x7D, 0xE8, 0x37, 0x00, 0x31, 0xC0, 0x8E, 0xD8, 0xBE,
   0x57, 0x7D, 0xE8, 0x2D, 0x00, 0xE8, 0x1D, 0x00, 0xB4, 0x01, 0xCD, 0x16,
   0x75, 0x08, 0xB4, 0x02, 0xCD, 0x16, 0x24, 0x04, 0x74, 0xF2, 0x31, 0xC0,
   0x8E, 0xD8, 0xB8, 0x34, 0x12, 0xA3, 0x73, 0x04, 0xEA, 0x00, 0x00, 0xFF,
   0xFF, 0xB4, 0x01, 0xCD, 0x16, 0x74, 0x06, 0xB4, 0x00, 0xCD, 0x16, 0xE2,
   0xF4, 0xC3, 0xAC, 0x3C, 0x00, 0x74, 0x4F, 0x3C, 0x0D, 0x74, 0xF7, 0x3C,
   0x0A, 0x75, 0x10, 0x53, 0xB4, 0x03, 0xCD, 0x10, 0xFE, 0xC6, 0xB2, 0x00,
   0xB4, 0x02, 0xCD, 0x10, 0x5B, 0xEB, 0xE3, 0x3C, 0x5C, 0x75, 0x1C, 0xB1,
   0x02, 0xAC, 0x3C, 0x46, 0x7F, 0xD8, 0x2C, 0x30, 0x3C, 0x09, 0x7E, 0x02,
   0x2C, 0x07, 0xC0, 0xE3, 0x04, 0x24, 0x0F, 0x08, 0xC3, 0xFE, 0xC9, 0x75,
   0xE8, 0xEB, 0xC3, 0xB9, 0x01, 0x00, 0xB4, 0x09, 0xCD, 0x10, 0x53, 0x31,
   0xDB, 0xB4, 0x03, 0xCD, 0x10, 0xFE, 0xC2, 0xB4, 0x02, 0xCD, 0x10, 0x5B,
   0xEB, 0xAC, 0xC3, 0x0D, 0x0A, 0x20, 0x20, 0x20, 0x20, 0x20, 0x20, 0x20,
   0x20, 0x20, 0x20, 0x20, 0x20, 0x20, 0x5C, 0x30, 0x34, 0x2A, 0x2A, 0x2A,
   0x20, 0x45, 0x52, 0x52, 0x4F, 0x52, 0x3A, 0x20, 0x54, 0x48, 0x49, 0x53,
   0x20, 0x4D, 0x45, 0x44, 0x49, 0x41, 0x20, 0x43, 0x41, 0x4E, 0x4E, 0x4F,
   0x54, 0x20, 0x42, 0x4F, 0x4F, 0x54, 0x20, 0x49, 0x4E, 0x20, 0x4C, 0x45,
   0x47, 0x41, 0x43, 0x59, 0x20, 0x4D, 0x4F, 0x44, 0x45, 0x20, 0x2A, 0x2A,
   0x2A, 0x5C, 0x30, 0x37, 0x0D, 0x0A, 0x00, 0x0D, 0x0A, 0x0D, 0x0A, 0x20,
   0x20, 0x20, 0x20, 0x20, 0x20, 0x20, 0x20, 0x20, 0x20, 0x20, 0x20, 0x20,
   0x5C, 0x37, 0x30, 0x50, 0x6C, 0x65, 0x61, 0x73, 0x65, 0x20, 0x72, 0x65,
   0x6D, 0x6F, 0x76, 0x65, 0x20, 0x74, 0x68, 0x69, 0x73, 0x20, 0x6D, 0x65,
   0x64, 0x69, 0x61, 0x20, 0x61, 0x6E, 0x64, 0x20, 0x70, 0x72, 0x65, 0x73,
   0x73, 0x20, 0x61, 0x6E, 0x79, 0x20, 0x6B, 0x65, 0x79, 0x20, 0x74, 0x6F,
   0x20, 0x72, 0x65, 0x62, 0x6F, 0x6F, 0x74, 0x5C, 0x30, 0x37, 0x00, 0x00,
   0x00, 0x00, 0x00, 0x00, 0x00, 0x00, 0x00, 0x00, 0x00, 0x00, 0x00, 0x00]

inductive BootType where
  | nonBootable
  | msdos
  | freedos
  | image
  | syslinuxV4
  | syslinuxV6
  | reactos
  | grub4dos
  | grub2
  | uefiNtfs
  | max
deriving DecidableEq, Repr

structure BootJob where
  /-- `SelectedDrive` -/
  sectorSize : ℕ
  partitionOffset : ℕ
  /-- `large_drive` -/
  large : Bool
  bootType : BootType
  /-- `partition_type` is `PARTITION_STYLE_GPT` -/
  gpt : Bool
  /-- `img_report` -/
  hasSyslinux : Bool
  hasGrub4dos : Bool
  hasGrub2 : Bool
  grub2Buf : Option (List UInt8)
  /-- the resources, where they can be loaded -/
  grldrMbr : Option (List UInt8)
  coreImg : Option (List UInt8)
  msg : Option (List UInt8)

/-- How each of the reads and writes goes, by its position. -/
abbrev Answers : Type := ℕ → ReadAnswer × WriteAnswer

/-- `write_data` -/
def patch (fd : FakeFd) (answers : Answers) (position : ℕ) (data : List UInt8)
    (drive : Memory) : C (Bool × Memory) :=
  writeData fd (answers position).1 (answers position).2 drive position data

def writeBootmarkFrom (fd : FakeFd) (answers : Answers) (pos : ℕ) (drive : Memory) :
    C (Bool × Memory) :=
  if pos < fd.sector.val then do
    let (written, drive) ← patch fd answers pos [0x55, 0xAA] drive
    if written then writeBootmarkFrom fd answers (pos + 0x200) drive
    else return (false, drive)
  else return (true, drive)
termination_by fd.sector.val - pos
decreasing_by omega

def writeBootmark (fd : FakeFd) (answers : Answers) (drive : Memory) :
    C (Bool × Memory) :=
  writeBootmarkFrom fd answers 0x1FE drive

def writeRufusMsgMbr (fd : FakeFd) (answers : Answers) (drive : Memory) :
    C (Bool × Memory) := do
  let (written, drive) ← patch fd answers 0x0 mbrMsgRufus drive
  if written then writeBootmark fd answers drive else return (false, drive)

/-- `GetResource` of a resource that is to be duplicated: a buffer of `len`
bytes, all of the resource if that is 0, and the size of the resource. -/
def getResourceCopy (res : List UInt8) (len : ℕ) : List UInt8 × ℕ :=
  let len := if len = 0 then res.length else len
  (res.take len ++ List.replicate (len - res.length) 0, res.length)

namespace BootJob

/-- The `fake_fd` of both functions. -/
def fd (job : BootJob) : FakeFd := ⟨0, setBytesPerSector job.sectorSize, job.large⟩

def writeMbrGpt (job : BootJob) (answers : Answers) (drive : Memory) :
    C (Bool × Memory) :=
  if job.sectorSize < 512 then return (false, drive)
  else writeRufusMsgMbr job.fd answers drive

def subType (job : BootJob) : BootType :=
  let subType :=
    if job.bootType = .image ∧ job.hasSyslinux = false then
      if job.hasGrub2 then .grub2
      else if job.hasGrub4dos then .grub4dos
      else job.bootType
    else job.bootType
  -- BT_MAX stands for the protective message
  if job.bootType ≠ .nonBootable ∧ job.gpt then .max else subType

/-- The end of `WriteSBR`, once `buf`, `size` and `br_size` are known. -/
def writeSbrData (job : BootJob) (answers : Answers) (brSize : ℕ) (buf : List UInt8)
    (size : ℕ) (drive : Memory) : C (Bool × Memory) := do
  if job.partitionOffset % 2 ^ 32 < (brSize + size) % 2 ^ 32 then return (false, drive)
  else
    let data ← loadN buf 0 size
    patch job.fd answers brSize data drive

def writeSbr (job : BootJob) (answers : Answers) (drive : Memory) :
    C (Bool × Memory) :=
  match job.subType with
  | .grub4dos =>
      match job.grldrMbr with
      | none => return (false, drive)
      | some buf =>
          if buf.length ≤ 0x200 then return (false, drive)
          else job.writeSbrData answers 0x200 (buf.drop 0x200) (buf.length - 0x200) drive
  | .grub2 =>
      match job.grub2Buf, job.coreImg with
      | some buf, _ => job.writeSbrData answers 0x200 buf buf.length drive
      | none, some buf => job.writeSbrData answers 0x200 buf buf.length drive
      | none, none => return (false, drive)
  | .max =>
      match job.msg with
      | none => return (false, drive)
      | some msg =>
          -- 34 sectors are reserved for protective MBR + primary GPT
          let resource := getResourceCopy msg (4 * 1024)
          job.writeSbrData answers (17 * 1024) resource.1 resource.2 drive
  | _ => return (true, drive)

/-- `WriteMBR` followed by `WriteSBR`, for a GPT drive. -/
def writeBootRecords (job : BootJob) (answers : Answers) (drive : Memory) :
    C (Bool × Memory) := do
  let (written, drive) ← job.writeMbrGpt answers drive
  if written then job.writeSbr answers drive else return (false, drive)

end BootJob

/-! ## What the MBR touches -/

section Mbr

variable {fd : FakeFd} {answers : Answers} {i : ℕ}

theorem locate_eq {position : ℕ} (hfd : fd.offset = 0) (hlt : position < 2 ^ 64) :
    fd.locate position = position := by
  rw [FakeFd.locate, hfd, Nat.add_zero, Nat.mod_eq_of_lt hlt]

theorem patch_frame (position : ℕ) (data : List UInt8) (drive : Memory)
    (hi : i < fd.coverStart position ∨ fd.coverStop position data.length ≤ i) :
    Ensures (patch fd answers position data drive) fun r => r.2 i = drive i :=
  fun _ hrun => writeData_frame hrun hi

/-- What is patched within the first sector stays within it. -/
theorem patch_first {position : ℕ} {data : List UInt8} (drive : Memory)
    (hfd : fd.offset = 0) (hin : position + data.length ≤ fd.sector.val)
    (hi : fd.sector.val ≤ i) :
    Ensures (patch fd answers position data drive) fun r => r.2 i = drive i := by
  have hle := fd.sector.le
  refine patch_frame position data drive (.inr (le_trans ?_ hi))
  rw [FakeFd.coverStop, locate_eq hfd (by omega)]
  exact ceilAlign_le fd.sector_pos (dvd_refl _) hin

/-- The last byte of the first sector starts a mark, and both of the sectors
it is in fit the buffer. -/
def FakeFd.Spills (fd : FakeFd) : Prop :=
  fd.sector.val % 512 = 511 ∧ fd.sector.val + fd.sector.val ≤ maxDataLen

/-- The sectors that the last mark is in where it does not fit the first
one. -/
theorem cover_last {pos : ℕ} (hfd : fd.offset = 0) (hlast : pos + 1 = fd.sector.val) :
    fd.coverStart pos = 0 ∧ fd.coverStop pos 2 = fd.sector.val + fd.sector.val := by
  have hge := fd.sector.ge
  have hle := fd.sector.le
  have hstop : pos + 2 = fd.sector.val + 1 := by omega
  rw [FakeFd.coverStart, FakeFd.coverStop, locate_eq hfd (by omega), hstop]
  constructor
  · rw [floorAlign, Nat.div_eq_of_lt (by omega), Nat.zero_mul]
  · have hdouble : fd.sector.val + 1 + fd.sector.val - 1 = fd.sector.val * 2 := by omega
    rw [ceilAlign, hdouble, Nat.mul_div_cancel_left 2 fd.sector_pos]
    omega

/-- The marks stay within the first sector unless one spills. -/
theorem writeBootmarkFrom_frame (hfd : fd.offset = 0) (hspill : ¬fd.Spills) (hi : fd.sector.val ≤ i) (pos : ℕ)
    (drive : Memory) (hpos : pos % 512 = 510) :
    Ensures (writeBootmarkFrom fd answers pos drive) fun r => r.2 i = drive i := by
  rw [writeBootmarkFrom]
  refine .ite (fun hlt => ?_) fun _ => .pure rfl
  have hpatch : Ensures (patch fd answers pos [0x55, 0xAA] drive)
      fun r => r.2 i = drive i := by
    rcases Nat.lt_or_ge (pos + 1) fd.sector.val with hin | hlast
    · exact patch_first drive hfd hin hi
    · -- two sectors that do not fit the buffer are refused
      obtain ⟨hstart, hstop⟩ := cover_last hfd (show pos + 1 = _ by omega)
      have hrefused : ¬(answers pos).1.Served fd pos 2 := by
        intro hserved
        have hcover := hserved.cover_le
        rw [hstart, hstop] at hcover
        exact hspill ⟨by omega, hcover⟩
      intro r hrun
      rw [patch, writeData_refused hrefused] at hrun
      rw [← Except.ok.inj hrun]
  refine hpatch.bind ?_
  rintro ⟨written, drive'⟩ hframe
  dsimp only at hframe ⊢
  refine .ite (fun _ => ?_) fun _ => .pure hframe
  refine (writeBootmarkFrom_frame hfd hspill hi (pos + 0x200) drive' (by omega)).mono ?_
  exact fun r hr => hr.trans hframe
termination_by fd.sector.val - pos
decreasing_by omega

set_option maxRecDepth 2000 in
theorem mbrMsgRufus_length : mbrMsgRufus.length = 432 := rfl

theorem writeRufusMsgMbr_frame (hfd : fd.offset = 0) (hspill : ¬fd.Spills) (hi : fd.sector.val ≤ i) (drive : Memory) :
    Ensures (writeRufusMsgMbr fd answers drive) fun r => r.2 i = drive i := by
  have hin : 0x0 + mbrMsgRufus.length ≤ fd.sector.val := by
    have hge := fd.sector.ge
    rw [mbrMsgRufus_length]
    omega
  refine (patch_first drive hfd hin hi).bind ?_
  rintro ⟨written, drive'⟩ hframe
  dsimp only at hframe ⊢
  refine .ite (fun _ => ?_) fun _ => .pure hframe
  refine (writeBootmarkFrom_frame hfd hspill hi 0x1FE drive' (by decide)).mono ?_
  exact fun r hr => hr.trans hframe

/-- Every range is patched without a disturbance but the one at `position`,
where the write fails. -/
def failAt (fd : FakeFd) (position : ℕ) : Answers := fun p =>
  if p = position then (wholeRead, failedWrite)
  else promptAnswers fd p (if p = 0 then mbrMsgRufus.length else 2)

theorem failAt_mark (fd : FakeFd) {position : ℕ} (hne : position % 512 ≠ 510) :
    ∀ p, p % 512 = 510 → failAt fd position p = promptAnswers fd p 2 := by
  intro p hp
  rw [failAt, if_neg (by omega), if_neg (by omega)]

/-- A range of the first sector is in reach, and there is room for it. -/
theorem first_inReach {position len : ℕ} (hfd : fd.offset = 0)
    (hin : position + len ≤ fd.sector.val) (hlen : 0 < len) :
    fd.InReach position len ∧ fd.coverStart position < fd.coverStop position len ∧
      fd.coverStop position len - fd.coverStart position ≤ maxDataLen := by
  have hle := fd.sector.le
  have hmax : maxDataLen = 65536 := rfl
  have hlocate := locate_eq hfd (show position < 2 ^ 64 by omega)
  have hstart := fd.coverStart_le position
  have hstop := fd.le_coverStop position len
  have hceil : fd.coverStop position len ≤ fd.sector.val := by
    rw [FakeFd.coverStop, hlocate]
    exact ceilAlign_le fd.sector_pos (dvd_refl _) hin
  exact ⟨⟨by omega, by omega⟩, by omega, by omega⟩

theorem patch_prompt {position : ℕ} (data : List UInt8) (drive : Memory)
    (hfd : fd.offset = 0) (hin : position + data.length ≤ fd.sector.val)
    (hlen : 0 < data.length)
    (hanswers : answers position = promptAnswers fd position data.length) :
    ∃ drive', patch fd answers position data drive = .ok (true, drive') := by
  obtain ⟨hreach, hpos, hcover⟩ := first_inReach hfd hin hlen
  rw [patch, hanswers]
  exact ⟨_, writeData_prompt drive hreach hpos hcover⟩

theorem patch_failed {position : ℕ} {data : List UInt8} (drive : Memory)
    (hreach : fd.InReach position data.length)
    (hcover : fd.coverStop position data.length - fd.coverStart position ≤ maxDataLen)
    (hanswers : answers position = (wholeRead, failedWrite)) :
    ∃ drive', patch fd answers position data drive = .ok (false, drive') ∧
      ∀ a, fd.coverStart position ≤ a → a < fd.coverStop position data.length →
        drive' a = 1 := by
  rw [patch, hanswers]
  refine ⟨_, writeData_failed drive hreach hcover, fun a ha hlt => ?_⟩
  rw [blit, if_pos (by omega)]

/-- Where no mark is in two sectors, all of them are written. -/
theorem writeBootmarkFrom_goes (hfd : fd.offset = 0) (hfits : fd.sector.val % 512 ≠ 511)
    (hanswers : ∀ p, p % 512 = 510 → answers p = promptAnswers fd p 2) (pos : ℕ)
    (drive : Memory) (hpos : pos % 512 = 510) :
    ∃ drive', writeBootmarkFrom fd answers pos drive = .ok (true, drive') := by
  rw [writeBootmarkFrom]
  by_cases hlt : pos < fd.sector.val
  · obtain ⟨drive₁, hpatch⟩ := patch_prompt [0x55, 0xAA] drive hfd
      (show pos + 2 ≤ fd.sector.val by omega) Nat.two_pos (hanswers pos hpos)
    obtain ⟨drive', hrest⟩ := writeBootmarkFrom_goes hfd hfits hanswers (pos + 0x200)
      drive₁ (by omega)
    rw [if_pos hlt, hpatch]
    exact ⟨drive', hrest⟩
  · exact ⟨drive, if_neg hlt⟩
termination_by fd.sector.val - pos
decreasing_by omega

/-- Where the last one is, and its write fails, both sectors can be lost. -/
theorem writeBootmarkFrom_spills (hfd : fd.offset = 0) (hspill : fd.Spills) (pos : ℕ)
    (drive : Memory) (hpos : pos % 512 = 510) (hlt : pos < fd.sector.val) :
    ∃ drive', writeBootmarkFrom fd (failAt fd (fd.sector.val - 1)) pos drive
        = .ok (false, drive') ∧ drive' fd.sector.val = 1 := by
  obtain ⟨hmod, hroom⟩ := hspill
  have hge := fd.sector.ge
  rw [writeBootmarkFrom, if_pos hlt]
  by_cases hlast : pos + 1 = fd.sector.val
  · obtain ⟨hstart, hstop⟩ := cover_last hfd hlast
    have hreach : fd.InReach pos [(0x55 : UInt8), 0xAA].length :=
      ⟨by rw [hstart]; exact Nat.two_pow_pos 63, by decide⟩
    have hcover : fd.coverStop pos 2 - fd.coverStart pos ≤ maxDataLen := by
      rwa [hstart, hstop, Nat.sub_zero]
    have hanswers : failAt fd (fd.sector.val - 1) pos = (wholeRead, failedWrite) :=
      if_pos (by omega)
    obtain ⟨drive', hpatch, hlost⟩ := patch_failed drive hreach hcover hanswers
    refine ⟨drive', ?_, hlost _ (by omega) ?_⟩
    · rw [hpatch]
      rfl
    · show fd.sector.val < fd.coverStop pos 2
      omega
  · have hanswers : failAt fd (fd.sector.val - 1) pos = promptAnswers fd pos 2 := by
      rw [failAt, if_neg (by omega), if_neg (by omega)]
    obtain ⟨drive₁, hpatch⟩ := patch_prompt [0x55, 0xAA] drive hfd
      (show pos + 2 ≤ fd.sector.val by omega) Nat.two_pos hanswers
    obtain ⟨drive', hrest, hlost⟩ := writeBootmarkFrom_spills hfd ⟨hmod, hroom⟩
      (pos + 0x200) drive₁ (by omega) (by omega)
    refine ⟨drive', ?_, hlost⟩
    rw [hpatch]
    exact hrest
termination_by fd.sector.val - pos
decreasing_by omega

end Mbr

/-! ## The message -/

/-- The primary GPT is left alone: its header in sector 1, and the 128 entries
of 128 bytes from sector 2 on. -/
def GptKept (sectorSize : ℕ) (drive drive' : Memory) : Prop :=
  ∀ i, sectorSize ≤ i → i < 2 * sectorSize + 128 * 128 → drive' i = drive i

/-- The sectors of a message of `len` bytes at 17 KB are not those of the GPT:
they are behind it, or the message fits the first sector, or there are none. -/
def MessageClear (sectorSize len : ℕ) : Prop :=
  sectorSize = 512 ∨ 17 * 1024 + len ≤ sectorSize ∨
    (len = 0 ∧ sectorSize ∣ 17 * 1024)

namespace BootJob

variable {job : BootJob} {answers : Answers} {msg : List UInt8}

/-- The job is one that writes `msg`, the resource that goes with it. -/
structure Sends (job : BootJob) (msg : List UInt8) : Prop where
  bootable : job.bootType ≠ .nonBootable
  loaded : job.msg = some msg
  length_le : msg.length ≤ 4 * 1024
  room : 17 * 1024 + msg.length ≤ job.partitionOffset % 2 ^ 32

/-- The sectors that are patched are those of the drive, unless these are too
large for `set_bytes_per_sector`. -/
theorem sector_val (hsize : 512 ≤ job.sectorSize) :
    job.fd.sector.val = if 65536 < job.sectorSize then 512 else job.sectorSize := by
  show (setBytesPerSector job.sectorSize).val = _
  unfold setBytesPerSector
  split
  case isTrue h => rw [if_pos (by omega)]
  case isFalse h => rw [if_neg (by omega)]

theorem sector_le (hsize : 512 ≤ job.sectorSize) :
    job.fd.sector.val ≤ job.sectorSize := by
  rw [sector_val hsize]
  split
  case isTrue => exact hsize
  case isFalse => exact le_rfl

/-- The sectors of the message, in their own terms. -/
theorem message_cover (job : BootJob) (len : ℕ) :
    job.fd.coverStart (17 * 1024) = floorAlign (17 * 1024) job.fd.sector.val ∧
    job.fd.coverStop (17 * 1024) len = ceilAlign (17 * 1024 + len) job.fd.sector.val := by
  have hlocate : job.fd.locate (17 * 1024) = 17 * 1024 := locate_eq rfl (by decide)
  rw [FakeFd.coverStart, FakeFd.coverStop, hlocate]
  exact ⟨rfl, rfl⟩

/-- A byte of the GPT is in none of the sectors of a message that is clear of
it. -/
theorem message_outside {len i : ℕ} (hsize : 512 ≤ job.sectorSize)
    (hlen : len ≤ 4 * 1024) (hclear : MessageClear job.sectorSize len)
    (hi : job.sectorSize ≤ i) (hi' : i < 2 * job.sectorSize + 128 * 128) :
    i < job.fd.coverStart (17 * 1024) ∨ job.fd.coverStop (17 * 1024) len ≤ i := by
  obtain ⟨hstart, hstop⟩ := job.message_cover len
  have hpos := job.fd.sector_pos
  rw [hstart, hstop]
  rcases hclear with h512 | hfits | ⟨rfl, hdvd⟩
  · have hsector : job.fd.sector.val = 512 := by
      rw [sector_val hsize, if_neg (by omega), h512]
    rw [hsector, show floorAlign (17 * 1024) 512 = 17 * 1024 by decide]
    omega
  · right
    refine le_trans ?_ hi
    by_cases hlarge : 65536 < job.sectorSize
    · have hceil := ceilAlign_lt (17 * 1024 + len) hpos
      rw [sector_val hsize, if_pos hlarge] at hceil ⊢
      omega
    · rw [sector_val hsize, if_neg hlarge]
      exact ceilAlign_le (by omega) (dvd_refl _) hfits
  · have hle := Nat.le_of_dvd (by decide) hdvd
    have hsector : job.fd.sector.val = job.sectorSize := by
      rw [sector_val hsize, if_neg (by omega)]
    rw [hsector, Nat.add_zero, ceilAlign_of_dvd (by omega) hdvd, floorAlign,
      Nat.div_mul_cancel hdvd]
    omega

/-- A message that is not clear of the GPT has a byte of it in its sectors,
and these can be read and written. -/
theorem message_inside {len : ℕ} (hsize : 512 ≤ job.sectorSize)
    (hlen : len ≤ 4 * 1024) (hclear : ¬MessageClear job.sectorSize len) :
    job.fd.InReach (17 * 1024) len ∧
    job.fd.coverStop (17 * 1024) len - job.fd.coverStart (17 * 1024) ≤ maxDataLen ∧
    ∃ i, job.sectorSize ≤ i ∧ i < 2 * job.sectorSize + 128 * 128 ∧
      job.fd.coverStart (17 * 1024) ≤ i ∧ i < job.fd.coverStop (17 * 1024) len := by
  obtain ⟨hstart, hstop⟩ := job.message_cover len
  rw [MessageClear, not_or, not_or] at hclear
  obtain ⟨h512, hlarge, hempty⟩ := hclear
  have hsector : job.fd.sector.val = job.sectorSize := by
    rw [sector_val hsize, if_neg (by omega)]
  have hpos : 0 < job.sectorSize := by omega
  have hfloor := floorAlign_le (17 * 1024) job.sectorSize
  have hfloor' := lt_floorAlign_add (17 * 1024) hpos
  have hceil := le_ceilAlign (17 * 1024 + len) hpos
  have hceil' := ceilAlign_lt (17 * 1024 + len) hpos
  have hmax : maxDataLen = 65536 := rfl
  rw [hsector] at hstart hstop
  refine ⟨⟨by omega, by omega⟩, by omega, ?_⟩
  rw [hstart, hstop]
  rcases Nat.lt_or_ge (17 * 1024) job.sectorSize with hfirst | hlater
  · exact ⟨job.sectorSize, le_rfl, by omega, by omega, by omega⟩
  · refine ⟨17 * 1024, hlater, by omega, hfloor, ?_⟩
    rcases Nat.eq_zero_or_pos len with rfl | hlen
    · refine lt_of_le_of_ne hceil fun heq => hempty ⟨rfl, ?_⟩
      rw [Nat.add_zero] at heq
      exact heq ▸ dvd_ceilAlign (17 * 1024) job.sectorSize
    · omega

/-! ## The two functions together -/

theorem subType_gpt (hgpt : job.gpt = true) :
    job.subType = if job.bootType = .nonBootable then .nonBootable else .max := by
  unfold subType
  by_cases hboot : job.bootType = .nonBootable
  · simp [hboot]
  · simp [hboot, hgpt]

/-- The buffer of the message is 4 KB large. -/
theorem getResourceCopy_length (res : List UInt8) :
    (getResourceCopy res (4 * 1024)).1.length = 4 * 1024 := by
  show (res.take (4 * 1024) ++ List.replicate (4 * 1024 - res.length) 0).length = _
  rw [List.length_append, List.length_take, List.length_replicate]
  omega

/-- What the SBR changes is outside of the GPT. -/
theorem writeSbr_kept (hgpt : job.gpt = true) (hsize : 512 ≤ job.sectorSize)
    (hclear : ∀ msg, job.Sends msg → MessageClear job.sectorSize msg.length)
    (drive : Memory) :
    Ensures (job.writeSbr answers drive) fun r => GptKept job.sectorSize drive r.2 := by
  have hsame : GptKept job.sectorSize drive drive := fun _ _ _ => rfl
  rw [writeSbr, subType_gpt hgpt]
  split_ifs with hboot
  · exact .pure hsame
  · dsimp only
    cases hmsg : job.msg with
    | none => exact .pure hsame
    | some msg =>
        refine .ite (fun _ => .pure hsame) fun hroom => ?_
        refine (loadN_ensures _ _ _).bind fun data hdata => ?_
        obtain ⟨hle, hlen⟩ := hdata
        have hsent : (getResourceCopy msg (4 * 1024)).2 = msg.length := rfl
        rw [getResourceCopy_length, hsent, Nat.zero_add] at hle
        rw [hsent] at hroom hlen
        have hsends : job.Sends msg := ⟨hboot, hmsg, hle, by omega⟩
        intro r hrun i hi hi'
        refine patch_frame (17 * 1024) data drive ?_ r hrun
        rw [hlen]
        exact message_outside hsize hle (hclear msg hsends) hi hi'

/-- A message that is sent is patched in. -/
theorem writeSbr_sends (hgpt : job.gpt = true) (hsends : job.Sends msg)
    (drive : Memory) :
    job.writeSbr answers drive = patch job.fd answers (17 * 1024) msg drive := by
  have hlen := hsends.length_le
  have hroom := hsends.room
  have hcopy : (getResourceCopy msg (4 * 1024)).1
      = msg ++ List.replicate (4 * 1024 - msg.length) 0 := by
    show msg.take (4 * 1024) ++ List.replicate (4 * 1024 - msg.length) 0 = _
    rw [List.take_of_length_le hlen]
  have hload : loadN (getResourceCopy msg (4 * 1024)).1 0 msg.length = .ok msg := by
    rw [loadN_of_le (by rw [getResourceCopy_length]; omega), hcopy, List.drop_zero,
      List.take_left]
  have hfits : ¬job.partitionOffset % 2 ^ 32 < (17 * 1024 + msg.length) % 2 ^ 32 := by
    omega
  rw [writeSbr, subType_gpt hgpt, if_neg hsends.bootable]
  simp only [hsends.loaded, writeSbrData]
  rw [show (getResourceCopy msg (4 * 1024)).2 = msg.length from rfl, if_neg hfits,
    hload, C.ok_bind]

theorem spills_iff (hsize : 512 ≤ job.sectorSize) :
    job.fd.Spills ↔ job.sectorSize % 512 = 511 ∧ job.sectorSize ≤ 32 * 1024 := by
  have hmax : maxDataLen = 65536 := rfl
  rw [FakeFd.Spills, sector_val hsize]
  split
  case isTrue h => exact iff_of_false (fun hspill => absurd hspill.1 (by decide)) (by omega)
  case isFalse => omega

theorem writeBootRecords_kept (hgpt : job.gpt = true)
    (hspill : 512 ≤ job.sectorSize → ¬job.fd.Spills)
    (hclear : 512 ≤ job.sectorSize →
      ∀ msg, job.Sends msg → MessageClear job.sectorSize msg.length) (drive : Memory) :
    Ensures (job.writeBootRecords answers drive)
      fun r => GptKept job.sectorSize drive r.2 := by
  have hmbr : Ensures (job.writeMbrGpt answers drive) fun r =>
      GptKept job.sectorSize drive r.2 ∧ (r.1 = true → 512 ≤ job.sectorSize) := by
    refine .ite (fun _ => .pure ⟨fun _ _ _ => rfl, nofun⟩) fun hsize => ?_
    have hsize := not_lt.mp hsize
    intro r hrun
    refine ⟨fun i hi _ => ?_, fun _ => hsize⟩
    exact writeRufusMsgMbr_frame rfl (hspill hsize) ((sector_le hsize).trans hi) drive r hrun
  refine hmbr.bind ?_
  rintro ⟨written, drive₁⟩ ⟨hkept, hsize⟩
  dsimp only at hkept hsize ⊢
  refine .ite (fun hwritten => ?_) fun _ => .pure hkept
  have hsize := hsize hwritten
  refine (writeSbr_kept hgpt hsize (hclear hsize) drive₁).mono fun r hr i hi hi' => ?_
  rw [hr i hi hi', hkept i hi hi']

/-- The first call of the run goes through, unless it is told to fail. -/
theorem writeMbrGpt_failAt (hsize : 512 ≤ job.sectorSize) {position : ℕ}
    (hne : position ≠ 0) (drive : Memory) :
    ∃ drive₁, job.writeMbrGpt (failAt job.fd position) drive
      = writeBootmarkFrom job.fd (failAt job.fd position) 0x1FE drive₁ := by
  have hin : 0x0 + mbrMsgRufus.length ≤ job.fd.sector.val := by
    have hge := job.fd.sector.ge
    rw [mbrMsgRufus_length]
    omega
  have hanswers : failAt job.fd position 0x0
      = promptAnswers job.fd 0x0 mbrMsgRufus.length := by
    rw [failAt, if_neg hne.symm, if_pos rfl]
  obtain ⟨drive₁, hpatch⟩ := patch_prompt _ drive rfl hin
    (by rw [mbrMsgRufus_length]; decide) hanswers
  refine ⟨drive₁, ?_⟩
  rw [writeMbrGpt, if_neg (not_lt.mpr hsize), writeRufusMsgMbr, hpatch]
  rfl

/-- A mark in two sectors can take the GPT header with it. -/
theorem writeBootRecords_spills (hsize : 512 ≤ job.sectorSize) (hspill : job.fd.Spills) :
    ∃ drive', job.writeBootRecords (failAt job.fd (job.sectorSize - 1)) (fun _ => 0)
        = .ok (false, drive') ∧ drive' job.sectorSize = 1 := by
  have hsector : job.fd.sector.val = job.sectorSize := by
    have hle := ((spills_iff hsize).mp hspill).2
    rw [sector_val hsize, if_neg (by omega)]
  obtain ⟨drive₁, hmbr⟩ := writeMbrGpt_failAt hsize
    (show job.sectorSize - 1 ≠ 0 by omega) (fun _ => 0)
  obtain ⟨drive', hmarks, hlost⟩ := writeBootmarkFrom_spills rfl hspill 0x1FE drive₁
    (by decide) (by omega)
  rw [hsector] at hmarks hlost
  refine ⟨drive', ?_, hlost⟩
  rw [writeBootRecords, hmbr, hmarks]
  rfl

/-- So can a message that is not clear of it. -/
theorem writeBootRecords_message (hgpt : job.gpt = true) (hsize : 512 ≤ job.sectorSize)
    (hspill : ¬job.fd.Spills) (hsends : job.Sends msg)
    (hclear : ¬MessageClear job.sectorSize msg.length) :
    ∃ drive' i, job.writeBootRecords (failAt job.fd (17 * 1024)) (fun _ => 0)
        = .ok (false, drive') ∧
      job.sectorSize ≤ i ∧ i < 2 * job.sectorSize + 128 * 128 ∧ drive' i = 1 := by
  obtain ⟨hreach, hcover, i, hi, hi', hstart, hstop⟩ :=
    message_inside hsize hsends.length_le hclear
  have hsmall : job.sectorSize ≤ 32 * 1024 := by
    have hlen := hsends.length_le
    rw [MessageClear, not_or, not_or] at hclear
    omega
  have hmod : job.fd.sector.val % 512 ≠ 511 := by
    rw [spills_iff hsize] at hspill
    rw [sector_val hsize, if_neg (by omega)]
    omega
  obtain ⟨drive₁, hmbr⟩ := writeMbrGpt_failAt hsize
    (show 17 * 1024 ≠ 0 by decide) (fun _ => 0)
  obtain ⟨drive₂, hmarks⟩ := writeBootmarkFrom_goes rfl hmod
    (failAt_mark job.fd (show 17 * 1024 % 512 ≠ 510 by decide)) 0x1FE drive₁ (by decide)
  obtain ⟨drive', hpatch, hlost⟩ := patch_failed drive₂ hreach hcover
    (show failAt job.fd (17 * 1024) (17 * 1024) = (wholeRead, failedWrite) from if_pos rfl)
  refine ⟨drive', i, ?_, hi, hi', hlost i hstart hstop⟩
  rw [writeBootRecords, hmbr, hmarks, C.ok_bind]
  exact (writeSbr_sends hgpt hsends drive₂).trans hpatch

/-- **When the GPT is kept.** On a GPT drive, whatever is on it and however the
reads and writes go, `WriteMBR` and `WriteSBR` leave the primary GPT alone
exactly if no mark of the boot sector is in two sectors, and the sectors of
the message, if one is sent, are clear of the GPT. -/
theorem writeBootRecords_gpt_iff (job : BootJob) (hgpt : job.gpt = true) :
    (∀ answers drive ok drive',
      job.writeBootRecords answers drive = .ok (ok, drive') →
      GptKept job.sectorSize drive drive') ↔
    (512 ≤ job.sectorSize →
      ¬(job.sectorSize % 512 = 511 ∧ job.sectorSize ≤ 32 * 1024) ∧
      ∀ msg, job.Sends msg → MessageClear job.sectorSize msg.length) := by
  constructor
  · intro hkept hsize
    have hspill : ¬job.fd.Spills := by
      intro hspill
      obtain ⟨drive', hrun, hlost⟩ := writeBootRecords_spills hsize hspill
      have hsame := hkept _ _ _ _ hrun job.sectorSize le_rfl (by omega)
      exact absurd (hlost.symm.trans hsame) (by decide)
    refine ⟨fun hboth => hspill ((spills_iff hsize).mpr hboth), fun msg hsends => ?_⟩
    by_contra hclear
    obtain ⟨drive', i, hrun, hi, hi', hlost⟩ :=
      writeBootRecords_message hgpt hsize hspill hsends hclear
    exact absurd (hlost.symm.trans (hkept _ _ _ _ hrun i hi hi')) (by decide)
  · intro hwhen answers drive ok drive' hrun
    refine writeBootRecords_kept hgpt (fun hsize hspill => ?_)
      (fun hsize => (hwhen hsize).2) drive (ok, drive') hrun
    exact (hwhen hsize).1 ((spills_iff hsize).mp hspill)

/-- A drive with sectors of so many bytes that gets a message of so many. -/
def messageJob (sectorSize len : ℕ) : BootJob where
  sectorSize := sectorSize
  partitionOffset := 1024 * 1024
  large := false
  bootType := .uefiNtfs
  gpt := true
  hasSyslinux := false
  hasGrub4dos := false
  hasGrub2 := false
  grub2Buf := none
  grldrMbr := none
  coreImg := none
  msg := some (List.replicate len 0x20)

theorem writeBootRecords_gpt_iff_512 :
    (∀ answers drive ok drive',
      (messageJob 512 1265).writeBootRecords answers drive = .ok (ok, drive') →
      GptKept (messageJob 512 1265).sectorSize drive drive') ↔
    (512 ≤ (messageJob 512 1265).sectorSize →
      ¬((messageJob 512 1265).sectorSize % 512 = 511 ∧
        (messageJob 512 1265).sectorSize ≤ 32 * 1024) ∧
      ∀ msg, (messageJob 512 1265).Sends msg →
        MessageClear (messageJob 512 1265).sectorSize msg.length) :=
  writeBootRecords_gpt_iff (messageJob 512 1265) rfl

/-- On a drive of 4 KB sectors the message is written over the entries of the
GPT, and both functions return `TRUE`. -/
theorem writeBootRecords_overwrites : ¬∀ (job : BootJob) (answers : Answers)
    (drive drive' : Memory), job.gpt = true →
    job.writeBootRecords answers drive = .ok (true, drive') →
    GptKept job.sectorSize drive drive' := by
  intro h
  obtain ⟨job, hjob⟩ : ∃ job, messageJob 4096 1265 = job := ⟨_, rfl⟩
  have hsize : job.sectorSize = 4096 := by
    rw [← hjob]
    rfl
  have hgpt : job.gpt = true := by
    rw [← hjob]
    rfl
  have hsector : job.fd.sector.val = 4096 := by
    rw [sector_val (by omega), hsize]
    rfl
  have hsends : job.Sends (List.replicate 1265 0x20) := by
    rw [← hjob]
    refine ⟨nofun, rfl, ?_, ?_⟩
    · rw [List.length_replicate]
      decide
    · rw [List.length_replicate]
      decide
  obtain ⟨text, htext⟩ : ∃ text, List.replicate 1265 (0x20 : UInt8) = text := ⟨_, rfl⟩
  have hlen : text.length = 1265 := by rw [← htext, List.length_replicate]
  rw [htext] at hsends
  -- the marks of the first sector
  obtain ⟨drive₁, hmbr⟩ := writeMbrGpt_failAt (show 512 ≤ job.sectorSize by omega)
    Nat.one_ne_zero (fun _ => 0)
  obtain ⟨drive₂, hmarks⟩ := writeBootmarkFrom_goes rfl (by rw [hsector]; decide)
    (failAt_mark job.fd (show 1 % 512 ≠ 510 by decide)) 0x1FE drive₁ (by decide)
  -- the message, in the fifth sector
  have hstart : job.fd.coverStart (17 * 1024) = 16384 := by
    rw [(job.message_cover 0).1, hsector]
    decide
  have hstop : ∀ len, 0 < len → len ≤ 3072 →
      job.fd.coverStop (17 * 1024) len = 20480 := by
    intro len hpos hle
    rw [(job.message_cover len).2, hsector, ceilAlign]
    omega
  have hanswers : failAt job.fd 1 (17 * 1024)
      = promptAnswers job.fd (17 * 1024) text.length := by
    rw [failAt, if_neg (by decide), if_neg (by decide), promptAnswers, promptAnswers,
      hstop 2 (by decide) (by decide), hstop _ (by omega) (by omega)]
  have hpatch : patch job.fd (failAt job.fd 1) (17 * 1024) text drive₂
      = .ok (true, patched job.fd drive₂ (17 * 1024) text) := by
    have hstop := hstop text.length (by omega) (by omega)
    have hmax : maxDataLen = 65536 := rfl
    rw [patch, hanswers]
    exact writeData_prompt drive₂ ⟨by omega, by omega⟩ (by omega) (by omega)
  have hrun : job.writeBootRecords (failAt job.fd 1) (fun _ => 0)
      = .ok (true, patched job.fd drive₂ (17 * 1024) text) := by
    rw [writeBootRecords, hmbr, hmarks, C.ok_bind]
    exact (writeSbr_sends hgpt hsends drive₂).trans hpatch
  have hkept := h job _ _ _ hgpt hrun (17 * 1024 + 0) (by omega) (by omega)
  rw [patched, locate_eq rfl (by decide), blitList_inside drive₂ _ (by omega), ← htext]
    at hkept
  exact absurd hkept (by decide)

end BootJob

end Nawam.MsSys
