import Nawam.Base.Trace
import Nawam.Drive.EspSlots
import Mathlib.Data.Fintype.Basic

/-!
# Toggling an ESP

`ToggleEsp` turns the ESP of a drive into a Basic Data partition, and the next
time back. In between the only trace of what the partition was is its GUID in
one of the slots, which all drives share. The way back searches the slots for
the GUID of a partition of the drive, by two nested loops, and when they are
done it clears the slot numbered by the *inner* index, the one that ran over
the partitions: by then one more than the index of the partition. The slot
that named the partition is cleared only where the two numbers happen to be
the same.
-/

namespace Nawam

/-! ## Drives and their partitions -/

/-- `PARTITION_STYLE_MBR` and `PARTITION_STYLE_GPT`. -/
inductive LayoutStyle where
  | mbr
  | gpt
deriving DecidableEq

/-- `PARTITION_INFORMATION_EX`; which of the two kinds of fields means
anything is told by the style of the drive. -/
structure PartitionEntry where
  startingOffset : UInt64
  /-- `Mbr.PartitionType` -/
  mbrType : UInt8
  /-- `Gpt.PartitionType` -/
  gptType : Guid
  /-- `Gpt.PartitionId` -/
  gptId : Guid
deriving DecidableEq

/-- `DRIVE_LAYOUT_INFORMATION_EX` -/
structure DriveLayout where
  partitionStyle : LayoutStyle
  /-- `Mbr.Signature` -/
  signature : UInt32
  partitionEntry : List PartitionEntry
deriving DecidableEq

def partitionGenericEsp : Guid :=
  ⟨0xC12A7328, 0xF81F, 0x11D2, #v[0xBA, 0x4B, 0x00, 0xA0, 0xC9, 0x3E, 0xC9, 0x3B]⟩

def partitionMicrosoftData : Guid :=
  ⟨0xEBD0A0A2, 0xB9E5, 0x4433, #v[0x87, 0xC0, 0x68, 0xB6, 0xB7, 0x26, 0x99, 0xC7]⟩

/-- A 64-bit value as it lies in memory. -/
def leVector (x : UInt64) : Vector UInt8 8 :=
  Vector.ofFn fun i => (x >>> (8 * UInt64.ofNat i)).toUInt8

namespace DriveLayout

/-- The GUID that names a partition: for MBR one is made from the signature of
the disk and the offset. -/
def guidOf (layout : DriveLayout) (entry : PartitionEntry) : Guid :=
  match layout.partitionStyle with
  | .gpt => entry.gptId
  | .mbr => ⟨layout.signature, 0, 0, leVector entry.startingOffset⟩

def isEsp (layout : DriveLayout) (entry : PartitionEntry) : Bool :=
  match layout.partitionStyle with
  | .mbr => entry.mbrType = 0xef
  | .gpt => entry.gptType = partitionGenericEsp

def toEsp (layout : DriveLayout) (entry : PartitionEntry) : PartitionEntry :=
  match layout.partitionStyle with
  | .gpt => { entry with gptType := partitionGenericEsp }
  | .mbr => { entry with mbrType := 0xef }

def fatMbrTypes : List (UInt8 × List UInt8) :=
  [(0x0b, Ascii.text "FAT     "), (0x01, Ascii.text "FAT12   "),
    (0x0e, Ascii.text "FAT16   "), (0x0c, Ascii.text "FAT32   ")]

/-- The MBR type for the file system of a boot sector, FAT32 where none is
recognized or no 512 bytes were read. -/
def fatMbrType (bootSector : Option (List UInt8)) : UInt8 :=
  match bootSector with
  | some buf =>
      if buf.length = 512 then
        [0x36, 0x52].foldl (fun type offset =>
          match fatMbrTypes.find? fun t => (buf.drop offset).take 8 = t.2 with
          | some t => t.1
          | none => type) 0x0b
      else 0x0b
  | none => 0x0b

def toBasic (layout : DriveLayout) (bootSector : Option (List UInt8))
    (entry : PartitionEntry) : PartitionEntry :=
  match layout.partitionStyle with
  | .gpt => { entry with gptType := partitionMicrosoftData }
  | .mbr => { entry with mbrType := fatMbrType bootSector }

def modifyEntry (layout : DriveLayout) (i : ℕ)
    (f : PartitionEntry → PartitionEntry) : DriveLayout :=
  { layout with partitionEntry := layout.partitionEntry.modify i f }

def espIndex (layout : DriveLayout) : Option ℕ :=
  layout.partitionEntry.findIdx? layout.isEsp

/-- The first partition that a slot names, the slots taken in order. -/
def findStored (layout : DriveLayout) (settings : Settings) : Option ℕ :=
  espSlots.findSome? fun i =>
    let stored := getEspGuid i settings
    if stored = .null then none
    else layout.partitionEntry.findIdx? fun entry => layout.guidOf entry = stored

end DriveLayout

/-! ## `ToggleEsp` -/

/-- What the calls answer; `bootSector` is what was read at the partition that
is switched to Basic Data. -/
structure EspCalls where
  windows10 : Bool
  handle : Bool
  layoutRead : Bool
  bootSector : Option (List UInt8)
  layoutSet : Bool

/-- The partition to toggle with the layout as it is to be set and, on the way
back, the slot to clear. The inner index `j` was stepped past the partition
that was found. -/
def chooseEsp (partitionOffset : UInt64) (bootSector : Option (List UInt8))
    (layout : DriveLayout) (settings : Settings) :
    Settings × Option (DriveLayout × Option UInt8) :=
  if partitionOffset = 0 then
    match layout.espIndex with
    | some i =>
        let guid := (layout.partitionEntry[i]?.map layout.guidOf).getD .null
        (storeEspInfo guid settings,
          some (layout.modifyEntry i (layout.toBasic bootSector), none))
    | none =>
        (settings, (layout.findStored settings).map fun esp =>
          let j := esp + 1
          (layout.modifyEntry esp layout.toEsp, some (.ofNat j)))
  else
    (settings, (layout.partitionEntry.findIdx? fun entry =>
      entry.startingOffset = partitionOffset).map fun i =>
        (layout.modifyEntry i layout.toEsp, none))

/-- `ToggleEsp`: what it returns, the layout on the drive and the settings. -/
def toggleEsp (calls : EspCalls) (partitionOffset : UInt64) (layout : DriveLayout)
    (settings : Settings) : Bool × DriveLayout × Settings :=
  if partitionOffset = 0 ∧ ¬calls.windows10 then (false, layout, settings)
  else if ¬(calls.handle ∧ calls.layoutRead) then (false, layout, settings)
  else
    match chooseEsp partitionOffset calls.bootSector layout settings with
    | (settings, none) => (false, layout, settings)
    | (settings, some (layout', slot)) =>
        if calls.layoutSet then
          (true, layout',
            match slot with
            | some j => clearEspInfo j settings
            | none => settings)
        else (false, layout, settings)

/-- Some drives, and the settings that they share. -/
structure World (ι : Type) where
  drives : ι → DriveLayout
  settings : Settings

variable {ι : Type} [DecidableEq ι]

/-- `ToggleEsp(drive, 0)` where all calls succeed; the second part of the
action is the boot sector that is read. -/
def World.toggle (a : ι × Option (List UInt8)) (σ : World ι) : World ι :=
  let calls : EspCalls :=
    { windows10 := true, handle := true, layoutRead := true, bootSector := a.2
      layoutSet := true }
  let (_, layout, settings) := toggleEsp calls 0 (σ.drives a.1) σ.settings
  { drives := Function.update σ.drives a.1 layout, settings }

/-! ## What a call does -/

namespace DriveLayout

def guids (layout : DriveLayout) : List Guid :=
  layout.partitionEntry.map layout.guidOf

/-- The change of type of an entry leaves alone what names it. -/
theorem guids_modifyEntry {layout : DriveLayout} {i : ℕ}
    {f : PartitionEntry → PartitionEntry}
    (hf : ∀ entry, layout.guidOf (f entry) = layout.guidOf entry) :
    (layout.modifyEntry i f).guids = layout.guids := by
  show (layout.partitionEntry.modify i f).map layout.guidOf = _
  refine List.ext_getElem? fun k => ?_
  simp only [guids, List.getElem?_map, List.getElem?_modify]
  cases layout.partitionEntry[k]? with
  | none => rfl
  | some entry =>
      by_cases hik : i = k
      · simp [hik, hf]
      · simp [hik]

theorem guidOf_toBasic (layout : DriveLayout) (bootSector : Option (List UInt8))
    (entry : PartitionEntry) :
    layout.guidOf (layout.toBasic bootSector entry) = layout.guidOf entry := by
  unfold guidOf toBasic
  cases layout.partitionStyle with
  | mbr => rfl
  | gpt => rfl

/-- No type that the boot sector can call for is that of an ESP. -/
theorem fatMbrType_ne_esp (bootSector : Option (List UInt8)) :
    fatMbrType bootSector ≠ 0xef := by
  have hfound (data : List UInt8) {type : UInt8} (htype : type ≠ 0xef) :
      (match fatMbrTypes.find? fun t => data = t.2 with
        | some t => t.1
        | none => type) ≠ 0xef := by
    split
    case h_1 t hfind =>
      have hall : ∀ t ∈ fatMbrTypes, t.1 ≠ 0xef := by decide
      exact hall t (List.mem_of_find?_eq_some hfind)
    case h_2 => exact htype
  unfold fatMbrType
  cases bootSector with
  | none => decide
  | some buf =>
      simp only
      split
      case isTrue => exact hfound _ (hfound _ (by decide))
      case isFalse => decide

theorem isEsp_toBasic (layout : DriveLayout) (bootSector : Option (List UInt8))
    (entry : PartitionEntry) :
    layout.isEsp (layout.toBasic bootSector entry) = false := by
  unfold isEsp toBasic
  cases layout.partitionStyle with
  | mbr => exact decide_eq_false (fatMbrType_ne_esp bootSector)
  | gpt => exact decide_eq_false (show partitionMicrosoftData ≠ partitionGenericEsp
      by decide)

/-- The way back leads to where the way there began. -/
theorem toEsp_toBasic {layout : DriveLayout} {bootSector : Option (List UInt8)}
    {entry : PartitionEntry} (h : layout.isEsp entry = true) :
    layout.toEsp (layout.toBasic bootSector entry) = entry := by
  obtain ⟨startingOffset, mbrType, gptType, gptId⟩ := entry
  unfold isEsp at h
  unfold toEsp toBasic
  cases hstyle : layout.partitionStyle with
  | mbr =>
      rw [hstyle] at h
      simp only [decide_eq_true_eq] at h
      simp [h]
  | gpt =>
      rw [hstyle] at h
      simp only [decide_eq_true_eq] at h
      simp [h]

def espGuid (layout : DriveLayout) : Option Guid :=
  layout.espIndex.bind fun i => layout.guids[i]?

end DriveLayout

/-- A call that reports failure has left the drive as it was. -/
theorem toggleEsp_of_failed {calls : EspCalls} {partitionOffset : UInt64}
    {layout : DriveLayout} {settings : Settings}
    (h : (toggleEsp calls partitionOffset layout settings).1 = false) :
    (toggleEsp calls partitionOffset layout settings).2.1 = layout := by
  unfold toggleEsp at h ⊢
  split
  case isTrue => rfl
  case isFalse hversion =>
    rw [if_neg hversion] at h
    split
    case isTrue => rfl
    case isFalse hread =>
      rw [if_neg hread] at h
      split
      case h_1 => rfl
      case h_2 settings' layout' slot hchoose =>
        simp only [hchoose] at h
        cases hset : calls.layoutSet with
        | false => rfl
        | true => simp [hset] at h

/-- **The way there**: the GUID is stored, the type changed. -/
theorem World.toggle_of_esp {σ : World ι} {d : ι} {k : ℕ} {g : Guid}
    (bootSector : Option (List UInt8)) (hk : (σ.drives d).espIndex = some k)
    (hg : (σ.drives d).espGuid = some g) :
    σ.toggle (d, bootSector) =
      { drives := Function.update σ.drives d
          ((σ.drives d).modifyEntry k ((σ.drives d).toBasic bootSector))
        settings := storeEspInfo g σ.settings } := by
  have hguid : ((σ.drives d).partitionEntry[k]?.map (σ.drives d).guidOf) = some g := by
    rw [DriveLayout.espGuid, hk] at hg
    simpa [DriveLayout.guids] using hg
  simp [toggle, toggleEsp, chooseEsp, hk, hguid]

/-- **The way back**: the slot that is cleared is the one after the index of
the partition. -/
theorem World.toggle_of_stored {σ : World ι} {d : ι} {k : ℕ}
    (bootSector : Option (List UInt8)) (hesp : (σ.drives d).espIndex = none)
    (hk : (σ.drives d).findStored σ.settings = some k) :
    σ.toggle (d, bootSector) =
      { drives := Function.update σ.drives d
          ((σ.drives d).modifyEntry k (σ.drives d).toEsp)
        settings := clearEspInfo (.ofNat (k + 1)) σ.settings } := by
  simp [toggle, toggleEsp, chooseEsp, hesp, hk]

/-- A drive that no slot names is left alone. -/
theorem World.toggle_of_not_stored {σ : World ι} {d : ι}
    (bootSector : Option (List UInt8)) (hesp : (σ.drives d).espIndex = none)
    (hnone : (σ.drives d).findStored σ.settings = none) :
    σ.toggle (d, bootSector) = σ := by
  simp [toggle, toggleEsp, chooseEsp, hesp, hnone]

end Nawam
