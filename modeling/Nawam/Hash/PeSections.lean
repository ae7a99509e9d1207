import Nawam.Hash.BootloaderBounds

/-!
# The section table of a PE image

`GetPeSection` and `RvaToPhysical` take the section table to stand behind an
optional header of the size that is usual for the machine; `efi_image_parse`
takes the size that the file header states. They look at the same table where
the two agree (`oneSectionTable_iff`). In that table `GetPeSection` finds the
right section, but the length that it gives is the one of the first section of
the table (`getPeSection_exact_iff`).
-/

namespace Nawam

open Extent

namespace PeImage

structure HeadersInBounds (image : List UInt8) : Prop where
  pe : IsPe image
  dos_le : 0x40 ≤ image.length
  /-- `e_lfanew` is signed. -/
  nt_lt : nt image < 2 ^ 31
  nt_le : nt image + 24 ≤ image.length
  table_le : sectionTable image + 40 * numberOfSections image ≤ image.length

def sizeOfOptionalHeader (image : List UInt8) : ℕ := fieldAt image (nt image + 20) 2

/-- The size of the optional header that is usual for the machine. -/
def standardSize (machine : ℕ) : ℕ :=
  if machine = imageFileMachineI386 ∨ machine = imageFileMachineArm then 224 else 240

/-- Its optional header has the standard size. -/
structure Standard (image : List UInt8) : Prop extends HeadersInBounds image where
  standard : sizeOfOptionalHeader image = standardSize (machineOf image)

end PeImage

open PeImage

/-! ## Which table -/

/-- `section_header` and `nb_sections`, as `GetPeSection` and `RvaToPhysical`
compute them. -/
def machineTable (buf : List UInt8) : C (Option (ℕ × ℕ)) := do
  match ← ntHeaders buf with
  | none => return none
  | some pe =>
      let machine ← loadLE buf (pe + 4) 2
      let nbSections ← loadLE buf (pe + 6) 2
      return some (pe + sectionHeaders machine, nbSections)

/-- `sections` and `num_sections`, as `efi_image_parse` computes them. -/
def declaredTable (image : List UInt8) : ℕ × ℕ :=
  (sectionTable image, numberOfSections image)

def onTable {α : Type} (table : C (Option (ℕ × ℕ))) (f : ℕ → ℕ → C (Option α)) :
    C (Option α) := do
  match ← table with
  | none => return none
  | some (table, n) => f table n

theorem getPeSection_table (buf name : List UInt8) :
    getPeSection buf name =
      onTable (machineTable buf) fun table n => sectionLoop buf table name n 0 := by
  rw [getPeSection, onTable, machineTable]
  cases ntHeaders buf with
  | error e => rfl
  | ok headers =>
      cases headers with
      | none => rfl
      | some pe =>
          simp only [C.ok_bind]
          cases loadLE buf (pe + 4) 2 with
          | error e => rfl
          | ok machine =>
              cases loadLE buf (pe + 6) 2 with
              | error e => rfl
              | ok n => rfl

theorem rvaToPhysical_table (buf : List UInt8) (rva : ℕ) :
    rvaToPhysical buf rva =
      onTable (machineTable buf) fun table n => rvaLoop buf table rva n 0 := by
  rw [rvaToPhysical, onTable, machineTable]
  cases ntHeaders buf with
  | error e => rfl
  | ok headers =>
      cases headers with
      | none => rfl
      | some pe =>
          simp only [C.ok_bind]
          cases loadLE buf (pe + 4) 2 with
          | error e => rfl
          | ok machine =>
              cases loadLE buf (pe + 6) 2 with
              | error e => rfl
              | ok n => rfl

/-- What `efi_image_parse` makes of its table: the regions of the sections. -/
def tableRegions (lib : ParseLibrary) (image : List UInt8) (max : ℕ)
    (regs : List ImageRegion) (authsz table n : ℕ) : C (Option (List ImageRegion)) := do
  let keys ← sectionKeys image table n 0
  let (regs, bytesHashed) ← sectionRegions image max (fileAlignment image)
    (lib.qsort keys) regs (sizeOfHeaders image)
  if bytesHashed + authsz < image.length then
    return some (efiImageRegionAdd max regs bytesHashed (image.length - authsz) false).1
  else return some regs

theorem bodyRegions_table {lib : ParseLibrary} (hsorted : lib.callocSorted = true)
    {image : List UInt8} (h : HeadersInBounds image)
    (hopt : opt image + 64 ≤ image.length) (max : ℕ) (regs : List ImageRegion)
    (authsz : ℕ) :
    bodyRegions lib image max (nt image) regs authsz =
      tableRegions lib image max regs authsz (declaredTable image).1
        (declaredTable image).2 := by
  have hnt := h.nt_le
  have hopt_eq : opt image = nt image + 24 := rfl
  rw [bodyRegions, loadLE_fieldAt (by omega), C.ok_bind, loadLE_fieldAt (by omega),
    C.ok_bind, loadLE_fieldAt (by omega), C.ok_bind, loadLE_fieldAt (by omega), C.ok_bind]
  dsimp only
  rw [if_pos hsorted]
  rfl

/-- The three functions are their loops over these tables, whatever else they
are given. -/
structure LooksUp (image : List UInt8) (machine : C (Option (ℕ × ℕ)))
    (declared : ℕ × ℕ) : Prop where
  getPeSection (name : List UInt8) : getPeSection image name =
    onTable machine fun table n => sectionLoop image table name n 0
  rvaToPhysical (rva : ℕ) : rvaToPhysical image rva =
    onTable machine fun table n => rvaLoop image table rva n 0
  bodyRegions (lib : ParseLibrary) (max : ℕ) (regs : List ImageRegion) (authsz : ℕ) :
    lib.callocSorted = true → opt image + 64 ≤ image.length →
      bodyRegions lib image max (nt image) regs authsz =
        tableRegions lib image max regs authsz declared.1 declared.2

theorem looksUp_tables {image : List UInt8} (h : HeadersInBounds image) :
    LooksUp image (machineTable image) (declaredTable image) where
  getPeSection := getPeSection_table image
  rvaToPhysical := rvaToPhysical_table image
  bodyRegions _ max regs authsz hsorted hopt :=
    bodyRegions_table hsorted h hopt max regs authsz

/-- All of them look at the same table: the one behind the optional header that
the file header declares. -/
def OneSectionTable (image : List UInt8) : Prop :=
  machineTable image = .ok (some (declaredTable image))

theorem machineTable_eq {image : List UInt8} (h : HeadersInBounds image) :
    machineTable image =
      .ok (some (nt image + sectionHeaders (machineOf image), numberOfSections image)) := by
  have hnt := h.nt_le
  have hfits : NtFits image := ⟨by have := h.dos_le; omega, fun _ => ⟨h.dos_le, h.nt_lt, by
    have hle : fieldAt image 0x3c 4 = nt image := rfl
    omega⟩⟩
  have hnt_eq : ntOf image = nt image := rfl
  rw [machineTable, ntHeaders_eq hfits, if_pos h.pe, C.ok_bind, hnt_eq]
  dsimp only
  rw [loadLE_fieldAt (by omega), C.ok_bind, loadLE_fieldAt (by omega), C.ok_bind]
  rfl

theorem sectionTable_eq_iff (image : List UInt8) :
    nt image + sectionHeaders (machineOf image) = sectionTable image ↔
      sizeOfOptionalHeader image = standardSize (machineOf image) := by
  have hplace : nt image + sectionHeaders (machineOf image) =
      opt image + standardSize (machineOf image) := by
    rw [sectionHeaders, standardSize, opt]
    split
    case isTrue => rfl
    case isFalse => rfl
  rw [hplace, sectionTable, Nat.add_left_cancel_iff]
  exact eq_comm

/-- **One table is looked at if and only if its place is the usual one**: the
tables are those that the functions go over, and they are the same where the
optional header has the size that is the standard for the machine. -/
theorem oneSectionTable_iff {image : List UInt8} (h : HeadersInBounds image) :
    LooksUp image (machineTable image) (declaredTable image) ∧
      (OneSectionTable image ↔
        sizeOfOptionalHeader image = standardSize (machineOf image)) := by
  refine ⟨looksUp_tables h, ?_⟩
  rw [OneSectionTable, machineTable_eq h, declaredTable, ← sectionTable_eq_iff]
  simp only [Except.ok.injEq, Option.some.injEq, Prod.mk.injEq, and_true]

/-- An optional header with five directories is not the standard one. -/
theorem twoSections_headers : HeadersInBounds twoSections where
  pe := by decide
  dos_le := by decide +kernel
  nt_lt := by decide
  nt_le := by decide +kernel
  table_le := by decide +kernel

theorem not_oneSectionTable_twoSections :
    HeadersInBounds twoSections ∧ ¬OneSectionTable twoSections := by
  refine ⟨twoSections_headers, ?_⟩
  rw [OneSectionTable, machineTable_eq twoSections_headers]
  decide

/-! ## Which section -/

/-- A name in the eight bytes of a section header. -/
def paddedSectionName (name : List UInt8) : List UInt8 :=
  name ++ List.replicate (8 - name.length) 0

def namedSection (image name : List UInt8) : Option ℕ :=
  (headers image).find? fun header => Extent.slice image (header, 8) = paddedSectionName name

/-- The first section with the name is found, with its raw data address and its
size, and none if there is none. -/
def FindsSection (image name : List UInt8) : Prop :=
  getPeSection image name =
    .ok ((namedSection image name).map (rawData image))

theorem sectionName_eq {name : List UInt8} (h : name.length ≤ 7) :
    sectionName name = paddedSectionName name := by
  rw [sectionName, List.take_of_length_le h, List.take_append,
    List.take_of_length_le (by omega), List.take_replicate, paddedSectionName,
    Nat.min_eq_left (by omega)]

/-- The loop finds the first section of the name, and the length of the first
section of the table. -/
theorem sectionLoop_eq (image name : List UInt8) (table : ℕ) :
    ∀ (n i : ℕ), table + 40 * (i + n) ≤ image.length →
      sectionLoop image table name n i =
        .ok ((((List.range' i n).map (table + 40 * ·)).find? fun header =>
          Extent.slice image (header, 8) = sectionName name).map fun header =>
            (fieldAt image (header + 20) 4, fieldAt image (table + 16) 4))
  | 0, i, _ => rfl
  | n + 1, i, hle => by
      have ih := sectionLoop_eq image name table n (i + 1) (by omega)
      rw [sectionLoop, loadN_of_le (by omega), C.ok_bind, List.range'_succ, List.map_cons]
      change (if Extent.slice image (table + 40 * i, 8) = sectionName name then _ else _) = _
      by_cases hname : Extent.slice image (table + 40 * i, 8) = sectionName name
      · rw [if_pos hname, List.find?_cons_of_pos (by simpa using hname),
          loadLE_fieldAt (by omega), C.ok_bind, loadLE_fieldAt (by omega), C.ok_bind]
        rfl
      · rw [if_neg hname, List.find?_cons_of_neg (by simpa using hname)]
        exact ih

/-- **`GetPeSection` is exact if and only if the lengths happen to agree**: the
section that is found is as long as the first one of the table. -/
theorem getPeSection_exact_iff {image name : List UInt8} (h : Standard image)
    (hname : name.length ≤ 7) :
    FindsSection image name ↔
      ∀ header ∈ namedSection image name,
        (rawData image header).2 = (rawData image (sectionTable image)).2 := by
  have htable := machineTable_eq h.toHeadersInBounds
  rw [(sectionTable_eq_iff image).mpr h.standard] at htable
  have hloop := sectionLoop_eq image name (sectionTable image) (numberOfSections image) 0
    (by rw [Nat.zero_add]; exact h.table_le)
  rw [FindsSection, getPeSection_table, htable]
  change sectionLoop image (sectionTable image) name (numberOfSections image) 0 = _ ↔ _
  rw [hloop, sectionName_eq hname, ← List.range_eq_range']
  change Except.ok ((namedSection image name).map _) = _ ↔ _
  cases namedSection image name with
  | none => exact iff_of_true rfl nofun
  | some header =>
      simp only [Option.map_some, Except.ok.injEq, Option.some.injEq, rawData, Prod.mk.injEq,
        true_and, Option.mem_def, forall_eq']
      exact eq_comm

def namedHeader (name : List UInt8) (raw pointer : ℕ) : List UInt8 :=
  paddedSectionName name ++ List.replicate 8 0 ++ leBytes 4 raw ++ leBytes 4 pointer ++
    List.replicate 16 0

def armHeaders (sections : List (List UInt8)) : List UInt8 :=
  [0x4d, 0x5a] ++ List.replicate 58 0 ++ leBytes 4 0x40 ++
    [0x50, 0x45, 0, 0, 0xc0, 0x01] ++ leBytes 2 sections.length ++ List.replicate 12 0 ++
    leBytes 2 224 ++ List.replicate 226 0 ++ sections.flatten

/-- `.sbat` behind a section of its size, or of another. -/
def sbatBehind (raw : ℕ) : List UInt8 :=
  armHeaders [namedHeader (Ascii.text ".text") raw 512, namedHeader (Ascii.text ".sbat") 64 1024]

theorem sbatBehind_standard_64 : Standard (sbatBehind 64) where
  pe := by decide
  dos_le := by decide +kernel
  nt_lt := by decide
  nt_le := by decide +kernel
  table_le := by decide +kernel
  standard := by decide

theorem sbatBehind_standard_512 : Standard (sbatBehind 512) where
  pe := by decide
  dos_le := by decide +kernel
  nt_lt := by decide
  nt_le := by decide +kernel
  table_le := by decide +kernel
  standard := by decide

theorem oneSectionTable_iff_sbatBehind : OneSectionTable (sbatBehind 64) :=
  (oneSectionTable_iff sbatBehind_standard_64.toHeadersInBounds).2.mpr
    sbatBehind_standard_64.standard

theorem getPeSection_exact_iff_sbatBehind :
    FindsSection (sbatBehind 64) (Ascii.text ".sbat") := by
  refine (getPeSection_exact_iff sbatBehind_standard_64 (by decide)).mpr ?_
  decide

theorem getPeSection_length_of_first :
    Standard (sbatBehind 512) ∧ getPeSection (sbatBehind 512) (Ascii.text ".sbat") =
        .ok (some (1024, 512)) ∧
      ¬FindsSection (sbatBehind 512) (Ascii.text ".sbat") := by
  refine ⟨sbatBehind_standard_512, by decide +kernel, ?_⟩
  rw [FindsSection]
  decide +kernel

end Nawam
