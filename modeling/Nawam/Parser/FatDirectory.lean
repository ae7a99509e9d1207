import Nawam.Parser.FatDumpdir
import Mathlib.Data.List.DropRight

/-!
# FAT directories

What a FAT directory holds, independently of how it is read: records of one
entry, or of an entry with the set of entries in front of it that hold its long
name, in pieces of 13 UTF-16 units and in reverse order. `FatDirectory` takes
entries apart into such records, up to the end marker; its `listing` is what
there is to list. `Supported` collects what `libfat_dumpdir` makes of it only
part of the time.
-/

namespace Nawam

/-! ## Names -/

def trimBlanks (bs : List UInt8) : List UInt8 := bs.rdropWhile (· = 32)

def IsCapital (c : UInt8) : Prop := 65 ≤ c ∧ c ≤ 90

instance (c : UInt8) : Decidable (IsCapital c) := instDecidableAnd

/-- A character, a letter put into lower case or not. -/
def lowerIf (lower : Prop) [Decidable lower] (c : UInt8) : Wchar :=
  if lower ∧ IsCapital c then c.toUInt16 + 0x20 else c.toUInt16

namespace FatDirent

variable (e : FatDirent)

def base : List UInt8 := trimBlanks (e.shortBytes.take 8)

def extension : List UInt8 := trimBlanks (e.shortBytes.drop 8)

/-- **The 8.3 name**: base and extension without the blanks they are filled up
with, each in lower case if its bit of the VFAT case flags is set. -/
def shortName : List Wchar :=
  e.base.map (lowerIf (e.caseflags &&& 0x08 ≠ 0)) ++
    if e.extension = [] then []
    else 46 :: e.extension.map (lowerIf (e.caseflags &&& 0x10 ≠ 0))

/-- The checksum of the 8.3 name that the entries of a long name hold. -/
def checksum : UInt8 :=
  e.shortBytes.foldl (fun sum c => ((sum &&& 1) <<< 7) + (sum >>> 1) + c) 0

/-- UTF-16 units in a row. -/
def unitsAt (i n : ℕ) : List Wchar := (List.range n).map fun k => read16 e (i + 2 * k)

/-- `name0`, `name5` and `name11` of `struct fat_vfat_slot`. -/
def slotUnits : List Wchar := e.unitsAt 1 5 ++ (e.unitsAt 14 6 ++ e.unitsAt 28 2)

def item (name : List Wchar) : DirItem :=
  ⟨name, e.size, e.attr &&& 0x37, e.startCluster⟩

end FatDirent

/-- The name as its pieces hold it: what does not fill the last one is a NUL and
0xFFFF. -/
def paddedName (name : List Wchar) : List Wchar := name ++ 0 :: List.replicate 12 0xFFFF

def slotCount (name : List Wchar) : ℕ := (name.length + 12) / 13

/-- The entry with the `k`-th piece of the long name of `e`. -/
structure IsSlot (name : List Wchar) (e : FatDirent) (k : ℕ) (slot : FatDirent) :
    Prop where
  id : slot.id = UInt8.ofNat (k + 1) ||| if k + 1 = slotCount name then 0x40 else 0
  attr : slot.attr = 0x0F
  reserved : slot.getD 12 0 = 0
  checksum : slot.getD 13 0 = e.checksum
  firstclust : read16 slot 26 = 0
  units : slot.slotUnits = ((paddedName name).drop (13 * k)).take 13

/-- A valid set of entries for a long name of `e`. -/
structure IsLongName (name : List Wchar) (e : FatDirent) (set : List FatDirent) :
    Prop where
  ne_nil : name ≠ []
  length_le : name.length ≤ 255
  noNul : (0 : Wchar) ∉ name
  slots : List.Forall₂ (IsSlot name e) (List.range (slotCount name)).reverse set

/-! ## Records -/

/-- The entry of a file or a directory other than '.' and '..'. -/
structure IsFile (e : FatDirent) : Prop where
  length : e.length = 32
  /-- not free, and not deleted -/
  used : e.id ≠ 0 ∧ e.id ≠ 0xe5
  /-- no characters of an 8.3 name -/
  chars : ∀ c ∈ e.shortBytes, c ≠ 0 ∧ c ≠ 46
  notLabel : e.attr &&& 0x08 = 0

inductive DirRecord where
  | deleted (e : FatDirent)
  | label (e : FatDirent)
  | dots (e : FatDirent)
  /-- a file without a long name -/
  | short (e : FatDirent)
  | long (name : List Wchar) (set : List FatDirent) (e : FatDirent)

namespace DirRecord

def entries : DirRecord → List FatDirent
  | deleted e => [e]
  | label e => [e]
  | dots e => [e]
  | short e => [e]
  | long _ set e => set ++ [e]

def items : DirRecord → List DirItem
  | deleted _ => []
  | label _ => []
  | dots _ => []
  | short e => [e.item e.shortName]
  | long name _ e => [e.item name]

def Valid : DirRecord → Prop
  | deleted e => e.id = 0xe5
  | label e => (e.id ≠ 0 ∧ e.id ≠ 0xe5) ∧ (e.attr &&& 0x08 ≠ 0 ∧ e.attr ≠ 0x0F) ∧
      e.startCluster = 0
  | dots e => e.shortBytes = Ascii.text ".          " ∨
      e.shortBytes = Ascii.text "..         "
  | short e => IsFile e
  | long name set e => IsFile e ∧ IsLongName name e set

end DirRecord

/-- A directory with these entries: records, and what starts with the end
marker, if there is one. -/
structure FatDirectory (es : List FatDirent) where
  records : List DirRecord
  tail : List FatDirent
  valid : ∀ r ∈ records, r.Valid
  ends : ∀ e ∈ tail.head?, e.id = 0
  entries : es = records.flatMap DirRecord.entries ++ tail

/-- **What a directory lists**, every file once and in order. -/
def FatDirectory.listing {es : List FatDirent} (dir : FatDirectory es) : List DirItem :=
  dir.records.flatMap DirRecord.items

/-- The calls from offset -1 on, up to a negative value, yield these items. -/
def Lists (fs : LibfatFilesystem) (cluster : Int32) (items : List DirItem) : Prop :=
  ∃ N, ∀ fuel n, N ≤ fuel → N ≤ n → listDir fs fuel n ⟨cluster, -1, 0⟩ = .ok items

/-! ## What is supported -/

/-- An 8.3 name whose blanks stand at the end of its base and of its extension,
and whose letters have the case that the two other flags name. -/
structure IsPlainShort (e : FatDirent) : Prop where
  base : 32 ∉ e.base
  extension : 32 ∉ e.extension
  baseCase : ∀ c ∈ e.base, IsCapital c →
    (e.caseflags &&& 0x02 ≠ 0 ↔ e.caseflags &&& 0x08 ≠ 0)
  extensionCase : ∀ c ∈ e.extension, IsCapital c →
    (e.caseflags &&& 0x04 ≠ 0 ↔ e.caseflags &&& 0x10 ≠ 0)

/-- The index that a sequence number stands for. -/
def FatDirent.seq (e : FatDirent) : ℤ := (e.id &&& 0x0F).toNat - 1

/-- From here on nothing is listed: the entries of long names come to the end or
are out of order, or the entry that they lead to has an impossible start
cluster. -/
def NoItem : ℤ → List FatDirent → Prop
  | _, [] => True
  | j, e :: es =>
      if e.attr = 0x0F ∧ (0 ≤ j ∨ e.id &&& 0xF0 = 0x40) then
        (0 ≤ j ∧ e.seq ≠ j - 1) ∨ (0 ≤ e.seq ∧ NoItem e.seq es)
      else 0x80000000 ≤ e.startCluster

/-- What is read there is not listed: the first entry that is not passed over, if
there is one, is free, or nothing is listed from it on. -/
def Silent (es : List FatDirent) : Prop :=
  ∀ e rest, es.dropWhile FatDirent.isIgnored = e :: rest →
    e.id = 0 ∨ NoItem (-1) (e :: rest)

/-- What `libfat_dumpdir` lists as it is: labels that are passed over, long names
of 15 entries at most, start clusters that are not negative, and plain 8.3 names;
and an end marker that is not passed over, or with nothing behind it. -/
structure FatDirectory.Supported {es : List FatDirent} (dir : FatDirectory es) :
    Prop where
  labels : ∀ e, .label e ∈ dir.records → e.isIgnored = true
  longNames : ∀ name set e, .long name set e ∈ dir.records → name.length ≤ 195
  clusters : ∀ item ∈ dir.listing, item.cluster < 0x80000000
  shortNames : ∀ e, .short e ∈ dir.records → IsPlainShort e
  tail : Silent dir.tail

/-! ## 8.3 names -/

section

variable {lower lower' : Prop} [Decidable lower] [Decidable lower'] {c : UInt8}

theorem lowerIf_eq_iff :
    lowerIf lower c = lowerIf lower' c ↔ (IsCapital c → (lower ↔ lower')) := by
  have hne : ∀ c : UInt8, c.toUInt16 + 0x20 ≠ c.toUInt16 :=
    fun c => forall_byte (p := fun c => c.toUInt16 + 0x20 ≠ c.toUInt16) (by decide +kernel) c
  unfold lowerIf
  by_cases hupper : IsCapital c
  · by_cases hlower : lower
    · by_cases hlower' : lower'
      · simp [hupper, hlower, hlower']
      · simp [hupper, hlower, hlower', hne]
    · by_cases hlower' : lower'
      · simp [hupper, hlower, hlower', (hne c).symm]
      · simp [hupper, hlower, hlower']
  · simp [hupper]

theorem lowerIf_eq_blank_iff : lowerIf lower c = 32 ↔ c = 32 := by
  have hletter : IsCapital c → c.toUInt16 + 0x20 ≠ 32 ∧ c ≠ 32 :=
    forall_byte (p := fun c => IsCapital c → c.toUInt16 + 0x20 ≠ 32 ∧ c ≠ 32)
      (by decide +kernel) c
  have hchar : c.toUInt16 = 32 ↔ c = 32 :=
    forall_byte (p := fun c => c.toUInt16 = 32 ↔ c = 32) (by decide +kernel) c
  unfold lowerIf
  split
  case isTrue h => exact iff_of_false (hletter h.2).1 (hletter h.2).2
  case isFalse => exact hchar

end

end Nawam
