import Nawam.Base.Align
import Nawam.Base.Safe
import Mathlib.Data.List.Range

/-!
# The regions of a PE256 digest

`efi_image_parse` of `hash.c` and the insertion of a region into its list. The
regions are the headers around the checksum and the directory of the
certificates, the raw data of the sections, and what stands behind them.

A PE image whose raw data are contiguous (`PeImage.WellFormed`) is digested
whole but for three pieces. The sections come in the order of their virtual
addresses and the insertion puts them into that of the file, so the proof goes
through the one order there is of extents that do not overlap.
-/

namespace Nawam

open Extent

/-! ## Source -/

/-- `struct image_region`; `data` is an offset in the image. -/
abbrev ImageRegion : Type := Extent

/-- The C library: whether the two allocations of `efi_image_parse` succeed,
and the order that `qsort` leaves the section headers in. A header is its
virtual address, that is compared, and its offset. -/
structure ParseLibrary where
  callocRegs : Bool
  callocSorted : Bool
  qsort : List (ℕ × ℕ) → List (ℕ × ℕ)

/-- The loop of `efi_image_region_add` over the regions there are. -/
def regionPlace (start stop : ℕ) (nocheck : Bool) :
    List ImageRegion → Option (List ImageRegion)
  | [] => some [(start, (stop - start) % 2 ^ 32)]
  | reg :: regs =>
      if nocheck then (regionPlace start stop nocheck regs).map (reg :: ·)
      else if reg.stop ≤ start then
        (regionPlace start stop nocheck regs).map (reg :: ·)
      else if stop ≤ reg.1 then
        some ((start, (stop - start) % 2 ^ 32) :: reg :: regs)
      else none

def efiImageRegionAdd (max : ℕ) (regs : List ImageRegion) (start stop : ℕ)
    (nocheck : Bool) : List ImageRegion × Bool :=
  if max ≤ regs.length then (regs, false)
  else if stop < start then (regs, false)
  else
    match regionPlace start stop nocheck regs with
    | none => (regs, false)
    | some regs => (regs, true)

/-- The regions of the headers, and `authsz`: the number of directories stands
at `count` of the optional header, and the directories at `directory`. -/
def headerRegions (efi : List UInt8) (max opt count directory : ℕ) :
    C (List ImageRegion × ℕ) := do
  let numberOfRvaAndSizes ← loadLE efi (opt + count) 4
  let sizeOfHeaders ← loadLE efi (opt + 60) 4
  -- CheckSum and Subsystem
  let (regs, _) := efiImageRegionAdd max [] 0 (opt + 64) false
  if numberOfRvaAndSizes ≤ 4 then
    let (regs, _) := efiImageRegionAdd max regs (opt + 68) sizeOfHeaders false
    return (regs, 0)
  else
    let security := opt + directory + 32
    let (regs, _) := efiImageRegionAdd max regs (opt + 68) security false
    let (regs, _) := efiImageRegionAdd max regs (security + 8) sizeOfHeaders false
    let authsz ← loadLE efi (security + 4) 4
    return (regs, authsz)

/-- `sorted` before it is sorted. The comparisons read the address of every
header; where there is but one, it is in front of what is read from it below. -/
def sectionKeys (efi : List UInt8) (table : ℕ) : ℕ → ℕ → C (List (ℕ × ℕ))
  | 0, _ => return []
  | n + 1, i => do
      let virtualAddress ← loadLE efi (table + 40 * i + 12) 4
      let keys ← sectionKeys efi table n (i + 1)
      return (virtualAddress, table + 40 * i) :: keys

/-- `(SizeOfRawData + align - 1) & ~(align - 1)` -/
def sectionSize (raw align : ℕ) : ℕ :=
  ((BitVec.ofNat 32 raw + BitVec.ofNat 32 align - 1) &&&
    ~~~(BitVec.ofNat 32 align - 1)).toNat

/-- The loop over the sections, and `bytes_hashed`. -/
def sectionRegions (efi : List UInt8) (max align : ℕ) :
    List (ℕ × ℕ) → List ImageRegion → ℕ → C (List ImageRegion × ℕ)
  | [], regs, bytesHashed => return (regs, bytesHashed)
  | (_, header) :: sorted, regs, bytesHashed => do
      let raw ← loadLE efi (header + 16) 4
      if raw = 0 then sectionRegions efi max align sorted regs bytesHashed
      else
        let pointer ← loadLE efi (header + 20) 4
        let size := sectionSize raw align
        let (regs, _) :=
          efiImageRegionAdd max regs pointer (pointer + size) false
        sectionRegions efi max align sorted regs (bytesHashed + size)

/-- What follows the headers: the sections and the extra data. -/
def bodyRegions (lib : ParseLibrary) (efi : List UInt8) (max nt : ℕ)
    (regs : List ImageRegion) (authsz : ℕ) : C (Option (List ImageRegion)) := do
  let bytesHashed ← loadLE efi (nt + 24 + 60) 4
  let align ← loadLE efi (nt + 24 + 36) 4
  let numSections ← loadLE efi (nt + 6) 2
  let sizeOfOptionalHeader ← loadLE efi (nt + 20) 2
  let table := nt + 24 + sizeOfOptionalHeader
  if lib.callocSorted then
    let keys ← sectionKeys efi table numSections 0
    let (regs, bytesHashed) ←
      sectionRegions efi max align (lib.qsort keys) regs bytesHashed
    if bytesHashed + authsz < efi.length then
      return some
        (efiImageRegionAdd max regs bytesHashed (efi.length - authsz) false).1
    else return some regs
  else return none

/-- `efi_image_parse`. A negative `e_lfanew` passes its check and is an address
in front of the image. -/
def efiImageParse (lib : ParseLibrary) (efi : List UInt8) :
    C (Option (List ImageRegion)) := do
  if efi.length < 0x80 then return none
  else
    let lfanew ← loadLE efi 0x3c 4
    if toLong efi.length - 0x40 < toLong lfanew then return none
    else if 2 ^ 31 ≤ lfanew then .error .outOfBounds
    else
      let numSections ← loadLE efi (lfanew + 6) 2
      let max := 3 + numSections + 1
      if lib.callocRegs then
        let magic ← loadLE efi (lfanew + 24) 2
        if magic = 0x20b then
          let (regs, authsz) ← headerRegions efi max (lfanew + 24) 108 112
          bodyRegions lib efi max lfanew regs authsz
        else if magic = 0x10b then
          let (regs, authsz) ← headerRegions efi max (lfanew + 24) 92 96
          bodyRegions lib efi max lfanew regs authsz
        else return none
      else return none

/-! ## Well-formed images -/

namespace PeImage

variable (image : List UInt8)

def nt : ℕ := fieldAt image 0x3c 4
def opt : ℕ := nt image + 24
def magic : ℕ := fieldAt image (opt image) 2
def sizeOfHeaders : ℕ := fieldAt image (opt image + 60) 4
def fileAlignment : ℕ := fieldAt image (opt image + 36) 4

def checkSum : Extent := (opt image + 64, 4)

/-- `NumberOfRvaAndSizes` -/
def directories : ℕ :=
  fieldAt image (opt image + if magic image = 0x20b then 108 else 92) 4

/-- `DataDirectory[IMAGE_DIRECTORY_ENTRY_SECURITY]` -/
def security : Extent :=
  (opt image + (if magic image = 0x20b then 112 else 96) + 32, 8)

def authsz : ℕ := fieldAt image ((security image).1 + 4) 4

def numberOfSections : ℕ := fieldAt image (nt image + 6) 2
def sectionTable : ℕ := opt image + fieldAt image (nt image + 20) 2

/-- The raw data of the section whose header is at `header` -/
def rawData (header : ℕ) : Extent :=
  (fieldAt image (header + 20) 4, fieldAt image (header + 16) 4)

def headers : List ℕ :=
  (List.range (numberOfSections image)).map (sectionTable image + 40 * ·)

def sections : List Extent :=
  ((headers image).map (rawData image)).filter (·.2 ≠ 0)

def dataEnd : ℕ := sizeOfHeaders image + ((sections image).map Prod.snd).sum

/-- A PE32 or PE32+ image: all headers within `SizeOfHeaders`, with a directory
of the certificates; behind them the raw data, of aligned sizes, that in some
order are contiguous, and at the end the certificates. -/
structure WellFormed : Prop where
  length_lt : image.length < 2 ^ 31
  magic : magic image = 0x10b ∨ magic image = 0x20b
  directories : 4 < directories image
  security_le : (security image).stop ≤ sizeOfHeaders image
  table_le : sectionTable image + 40 * numberOfSections image ≤ sizeOfHeaders image
  fileAlignment : ∃ k, fileAlignment image = 2 ^ k
  sizes : ∀ s ∈ sections image, PeImage.fileAlignment image ∣ s.2
  contiguous : ∃ order, order.Perm (sections image) ∧
    Adjoins (sizeOfHeaders image) order (dataEnd image)
  authsz_le : dataEnd image + authsz image ≤ image.length

/-- What is to be digested: all but the `CheckSum`, the entry of the directory
and the certificates. -/
def digested : List UInt8 :=
  without (without (without image (image.length - authsz image, authsz image))
    (security image)) (checkSum image)

/-- The headers around the `CheckSum` and the entry of the directory -/
def headerExtents : List Extent :=
  [(0, (checkSum image).1),
    ((checkSum image).stop, (security image).1 - (checkSum image).stop),
    ((security image).stop, sizeOfHeaders image - (security image).stop)]

/-- What stands between the raw data and the certificates, if anything does -/
def extraExtents : List Extent :=
  if dataEnd image + authsz image < image.length then
    [(dataEnd image, image.length - authsz image - dataEnd image)]
  else []

end PeImage

/-! ## One region -/

/-- An extent of less than 4 GB goes where it belongs. -/
theorem regionPlace_eq (start size : ℕ) (hsize : size < 2 ^ 32) :
    ∀ regs : List ImageRegion, regionPlace start (start + size) false regs
      = Extent.insert (start, size) regs
  | [] => by
      rw [regionPlace, Nat.add_sub_cancel_left, Nat.mod_eq_of_lt hsize]
      rfl
  | reg :: regs => by
      rw [regionPlace, Extent.insert, Nat.add_sub_cancel_left, Nat.mod_eq_of_lt hsize,
        regionPlace_eq start size hsize regs]
      rfl

theorem efiImageRegionAdd_ordered {max start size : ℕ} {regs : List ImageRegion}
    (hmax : regs.length < max) (hsize : size < 2 ^ 32) (hregs : Ordered regs)
    (hapart : ∀ r ∈ regs, Apart r (start, size)) :
    ∃ regs', efiImageRegionAdd max regs start (start + size) false = (regs', true) ∧
      regs'.Perm ((start, size) :: regs) ∧ Ordered regs' := by
  obtain ⟨regs', hinsert, hperm, hordered⟩ := insert_ordered hregs hapart
  refine ⟨regs', ?_, hperm, hordered⟩
  have hspan : ¬start + size < start := by omega
  rw [efiImageRegionAdd, if_neg (Nat.not_le.mpr hmax), if_neg hspan,
    regionPlace_eq start size hsize, hinsert]

/-- A region behind all that there are comes last. -/
theorem efiImageRegionAdd_last {max start stop : ℕ} {regs : List ImageRegion}
    (hmax : regs.length < max) (hle : start ≤ stop) (hsize : stop - start < 2 ^ 32)
    (hregs : Ordered (regs ++ [(start, stop - start)])) :
    efiImageRegionAdd max regs start stop false
      = (regs ++ [(start, stop - start)], true) := by
  obtain ⟨hfront, -, hlast⟩ := List.pairwise_append.mp hregs
  have hapart : ∀ r ∈ regs, Apart r (start, stop - start) :=
    fun r hr => .inl (hlast r hr _ List.mem_cons_self)
  obtain ⟨regs', hadd, hperm, hordered⟩ :=
    efiImageRegionAdd_ordered hmax hsize hfront hapart
  rw [Nat.add_sub_cancel' hle] at hadd
  rw [hadd, hordered.eq_of_perm hregs
    (hperm.trans (List.perm_append_singleton _ _).symm)]

theorem efiImageRegionAdd_three {max a b c d e : ℕ} (hmax : 3 ≤ max) (hab : a ≤ b)
    (hbc : b ≤ c) (hcd : c ≤ d) (hde : d ≤ e) (he : e < 2 ^ 32) :
    efiImageRegionAdd max [] 0 a false = ([(0, a)], true) ∧
      efiImageRegionAdd max [(0, a)] b c false = ([(0, a), (b, c - b)], true) ∧
      efiImageRegionAdd max [(0, a), (b, c - b)] d e false
        = ([(0, a), (b, c - b), (d, e - d)], true) := by
  have hordered : Ordered [(0, a), (b, c - b), (d, e - d)] := by
    simp only [Ordered, Before, stop, List.pairwise_cons, List.mem_cons,
      List.not_mem_nil, or_false, forall_eq_or_imp, forall_eq, false_imp_iff,
      implies_true, List.Pairwise.nil, and_true]
    omega
  refine ⟨?_, ?_, ?_⟩
  · exact efiImageRegionAdd_last (by show 0 < max; omega) (Nat.zero_le a) (by omega)
      (List.pairwise_singleton _ _)
  · exact efiImageRegionAdd_last (by show 1 < max; omega) hbc (by omega)
      (hordered.sublist (List.sublist_append_left [_, _] [_]))
  · exact efiImageRegionAdd_last (by show 2 < max; omega) hde (by omega) hordered

/-! ## The sections -/

/-- A size that is aligned stays what it is. -/
theorem sectionSize_of_dvd {raw k : ℕ} (hraw : raw < 2 ^ 32) (hpos : 0 < raw)
    (hdvd : 2 ^ k ∣ raw) : sectionSize raw (2 ^ k) = raw := by
  obtain ⟨m, rfl⟩ := hdvd
  have hk : k < 32 := by
    by_contra hge
    have hpow : 2 ^ 32 ≤ 2 ^ k := Nat.pow_le_pow_right (by decide) (by omega)
    have hm : 0 < m := Nat.pos_of_mul_pos_left hpos
    have hle : 2 ^ k ≤ 2 ^ k * m := Nat.le_mul_of_pos_right _ hm
    omega
  have hpow : 0 < 2 ^ k ∧ 2 ^ k < 2 ^ 32 :=
    ⟨Nat.two_pow_pos k, Nat.pow_lt_pow_right (by decide) hk⟩
  have hmask : BitVec.ofNat 32 (2 ^ k) - 1 = BitVec.ofNat 32 (2 ^ k - 1) := by
    generalize 2 ^ k = p at hpow
    bv_omega
  have hsum : BitVec.ofNat 32 (2 ^ k * m) + BitVec.ofNat 32 (2 ^ k) - 1
      = BitVec.ofNat 32 (2 ^ k * m + (2 ^ k - 1)) := by
    generalize 2 ^ k * m = r at hraw
    generalize 2 ^ k = p at hpow
    bv_omega
  have hbits : BitVec.ofNat 32 (2 ^ k * m + (2 ^ k - 1)) &&&
      ~~~BitVec.ofNat 32 (2 ^ k - 1) = BitVec.ofNat 32 (2 ^ k * m) := by
    apply BitVec.eq_of_getLsbD_eq
    intro i hi
    have hlow : (2 ^ k * m + (2 ^ k - 1)).testBit i
        = if i < k then (2 ^ k - 1).testBit i else m.testBit (i - k) :=
      Nat.testBit_two_pow_mul_add m (by omega) i
    simp only [BitVec.getLsbD_and, BitVec.getLsbD_not, BitVec.getLsbD_ofNat, hlow,
      Nat.testBit_two_pow_sub_one, Nat.testBit_two_pow_mul]
    by_cases hik : i < k
    · simp [hi, hik, Nat.not_le.mpr hik]
    · simp [hi, hik, Nat.not_lt.mp hik]
  rw [sectionSize, hsum, hmask, hbits, BitVec.toNat_ofNat, Nat.mod_eq_of_lt hraw]

theorem sectionKeys_eq {efi : List UInt8} {table : ℕ} : ∀ (n i : ℕ),
    table + 40 * (i + n) ≤ efi.length + 24 →
    sectionKeys efi table n i = .ok ((List.range' i n).map fun j =>
      (fieldAt efi (table + 40 * j + 12) 4, table + 40 * j))
  | 0, _, _ => rfl
  | n + 1, i, h => by
      have ih := @sectionKeys_eq efi table n (i + 1) (by omega)
      rw [sectionKeys, loadLE_fieldAt (by omega), ih]
      rfl

/-- The loop adds the raw data of the sections to the regions, in whatever
order it meets them. -/
theorem sectionRegions_ordered {efi : List UInt8} {max k : ℕ} :
    ∀ (sorted : List (ℕ × ℕ)) (regs : List ImageRegion) (bytesHashed : ℕ)
      (xs : List Extent),
      (∀ h ∈ sorted, h.2 + 24 ≤ efi.length) →
      xs = (sorted.map (PeImage.rawData efi ·.2)).filter (·.2 ≠ 0) →
      (∀ x ∈ xs, 2 ^ k ∣ x.2) → Ordered regs → (regs ++ xs).Pairwise Apart →
      regs.length + xs.length ≤ max →
      ∃ regs', sectionRegions efi max (2 ^ k) sorted regs bytesHashed
          = .ok (regs', bytesHashed + (xs.map Prod.snd).sum) ∧
        regs'.Perm (regs ++ xs) ∧ Ordered regs'
  | [], regs, bytesHashed, xs, _, hxs, _, hregs, _, _ => by
      subst hxs
      exact ⟨regs, by simp [sectionRegions], by simp, hregs⟩
  | (va, header) :: sorted, regs, bytesHashed, xs, hin, hxs, hdvd, hregs, hapart,
      hmax => by
      obtain ⟨hheader, hrest⟩ := List.forall_mem_cons.mp hin
      replace hheader : header + 24 ≤ efi.length := hheader
      rw [sectionRegions, loadLE_fieldAt (by omega), C.ok_bind]
      split
      case isTrue hzero =>
          have hraw : (PeImage.rawData efi header).2 = 0 := hzero
          refine sectionRegions_ordered sorted regs bytesHashed xs hrest ?_ hdvd hregs
            hapart hmax
          rw [hxs, List.map_cons, List.filter_cons_of_neg (by simpa using hraw)]
      case isFalse hne =>
          obtain ⟨x, hx⟩ : ∃ x, PeImage.rawData efi header = x := ⟨_, rfl⟩
          have hraw : x.2 ≠ 0 := hx ▸ hne
          have hread : fieldAt efi (header + 16) 4 = x.2 := congrArg Prod.snd hx
          have hpointer : fieldAt efi (header + 20) 4 = x.1 := congrArg Prod.fst hx
          obtain ⟨ys, hcons, hys⟩ : ∃ ys, xs = x :: ys ∧
              ys = (sorted.map (PeImage.rawData efi ·.2)).filter (·.2 ≠ 0) := by
            refine ⟨_, ?_, rfl⟩
            rw [hxs, List.map_cons, hx, List.filter_cons_of_pos (by simpa using hraw)]
          subst hcons
          obtain ⟨hdvdx, hdvdys⟩ := List.forall_mem_cons.mp hdvd
          have hlt : x.2 < 2 ^ 32 := hread ▸ fieldAt_lt efi (header + 16) 4
          have hsize : sectionSize x.2 (2 ^ k) = x.2 :=
            sectionSize_of_dvd hlt (Nat.pos_of_ne_zero hraw) hdvdx
          rw [List.length_cons] at hmax
          obtain ⟨regs', hadd, hperm, hordered⟩ := efiImageRegionAdd_ordered
            (by omega : regs.length < max) hlt hregs fun r hr =>
              (List.pairwise_append.mp hapart).2.2 r hr x List.mem_cons_self
          have hroom : regs'.length + ys.length ≤ max := by
            rw [hperm.length_eq, List.length_cons]
            omega
          have hmove : (regs' ++ ys).Perm (regs ++ x :: ys) :=
            (hperm.append_right ys).trans List.perm_middle.symm
          obtain ⟨out, hrun, hout, hall⟩ := sectionRegions_ordered sorted regs'
            (bytesHashed + x.2) ys hrest hys hdvdys hordered
            (hmove.symm.pairwise hapart Apart.symm) hroom
          refine ⟨out, ?_, hout.trans hmove, hall⟩
          rw [loadLE_fieldAt (by omega), C.ok_bind, hread, hpointer, hsize]
          dsimp only
          rw [hadd]
          dsimp only
          rw [hrun, List.map_cons, List.sum_cons, Nat.add_assoc]

/-! ## The whole image -/

theorem PeImage.security_ge (image : List UInt8) :
    (checkSum image).stop ≤ (security image).1 ∧
      opt image + 112 + 24 ≤ (security image).stop := by
  unfold security checkSum Extent.stop
  split <;> omega

namespace PeImage.WellFormed

variable {image : List UInt8} (h : WellFormed image)
include h

theorem sizeOfHeaders_le : sizeOfHeaders image ≤ image.length := by
  have hend := h.authsz_le
  unfold dataEnd at hend
  omega

/-- The regions stand in the order of the file. -/
theorem laidOut {order : List Extent}
    (horder : Adjoins (sizeOfHeaders image) order (dataEnd image)) :
    LaidOut 0 (headerExtents image ++ (order ++ extraExtents image))
        (image.length - authsz image) ∧
      Adjoins (security image).stop
        (((security image).stop, sizeOfHeaders image - (security image).stop) ::
          (order ++ extraExtents image)) (image.length - authsz image) := by
  have hend := h.authsz_le
  have hsecurity := h.security_le
  have hfront := (security_ge image).1
  have hextra : Adjoins (dataEnd image) (extraExtents image)
      (image.length - authsz image) := by
    unfold extraExtents
    split
    case isTrue hlt =>
        refine ⟨rfl, ?_⟩
        show dataEnd image + (image.length - authsz image - dataEnd image) = _
        omega
    case isFalse hge =>
        show dataEnd image = image.length - authsz image
        omega
  have htail : Adjoins (security image).stop
      (((security image).stop, sizeOfHeaders image - (security image).stop) ::
        (order ++ extraExtents image)) (image.length - authsz image) := by
    refine ⟨rfl, ?_⟩
    show Adjoins ((security image).stop +
      (sizeOfHeaders image - (security image).stop)) _ _
    rw [Nat.add_sub_cancel' hsecurity]
    exact horder.append hextra
  refine ⟨⟨le_rfl, ?_, ?_⟩, htail⟩
  · show 0 + (checkSum image).1 ≤ (checkSum image).stop
    unfold Extent.stop
    omega
  · refine htail.laidOut.weaken ?_
    show (checkSum image).stop + ((security image).1 - (checkSum image).stop)
      ≤ (security image).stop
    unfold Extent.stop at hfront ⊢
    omega

/-- The headers, the raw data in the order of the file and the rest hold what
is to be digested. -/
theorem slices {order : List Extent}
    (horder : Adjoins (sizeOfHeaders image) order (dataEnd image)) :
    (headerExtents image ++ (order ++ extraExtents image)).flatMap (Extent.slice image)
      = digested image := by
  have htail := (h.laidOut horder).2
  have hfront := (security_ge image).1
  have hsecurity : (security image).1 ≤ image.length - authsz image :=
    le_trans (Nat.le_add_right _ _) htail.laidOut.le
  have hlen : (image.take (image.length - authsz image)).length
      = image.length - authsz image := by simp
  have hcut : without image (image.length - authsz image, authsz image)
      = image.take (image.length - authsz image) := by
    have hend : (image.length - authsz image) + authsz image = image.length := by
      have := h.authsz_le
      omega
    rw [without, Extent.stop, hend, List.drop_length, List.append_nil]
  have hheaders : (image.take (security image).1).length = (security image).1 :=
    List.length_take_of_le (by omega)
  have hdirectory : without (image.take (image.length - authsz image)) (security image)
      = image.take (security image).1 ++ Extent.slice image ((security image).stop,
        image.length - authsz image - (security image).stop) := by
    rw [without, List.take_take, Nat.min_eq_left hsecurity, List.drop_take]
    rfl
  have hchecksum : without (image.take (security image).1) (checkSum image)
      = Extent.slice image (0, (checkSum image).1) ++ Extent.slice image
        ((checkSum image).stop, (security image).1 - (checkSum image).stop) := by
    rw [without, List.take_take, Nat.min_eq_left, List.drop_take]
    · rfl
    · exact le_trans (Nat.le_add_right _ _) hfront
  rw [digested, hcut, hdirectory, without_append _ _ (by rw [hheaders]; exact hfront),
    hchecksum, List.append_assoc]
  show Extent.slice image _ ++ (Extent.slice image _ ++ List.flatMap (Extent.slice image)
    (_ :: (order ++ extraExtents image))) = _
  rw [htail.slices image]

/-- The first regions, of either kind of image. -/
theorem headerRegions_eq {max count directory : ℕ} (hmax : 3 ≤ max)
    (hcount : count + 4 ≤ directory)
    (hdirectories : 4 < fieldAt image (opt image + count) 4)
    (hsecurity : security image = (opt image + directory + 32, 8)) :
    headerRegions image max (opt image) count directory
      = .ok (headerExtents image, authsz image) := by
  have hfront := (security_ge image).1
  have hstop := h.security_le
  have hlen := h.sizeOfHeaders_le
  have hlt := h.length_lt
  have hnum : ¬fieldAt image (opt image + count) 4 ≤ 4 := by omega
  have hauth : authsz image = fieldAt image (opt image + directory + 32 + 4) 4 := by
    rw [authsz, hsecurity]
  unfold headerExtents
  rw [hsecurity] at hfront hstop ⊢
  have hsubsystem : opt image + 64 + 4 = opt image + 68 := rfl
  have hsoh : fieldAt image (opt image + 60) 4 = sizeOfHeaders image := rfl
  simp only [checkSum, Extent.stop, hsubsystem] at hfront hstop ⊢
  obtain ⟨hone, htwo, hthree⟩ := @efiImageRegionAdd_three max (opt image + 64)
    (opt image + 68) (opt image + directory + 32) (opt image + directory + 32 + 8)
    (sizeOfHeaders image) hmax (by omega) hfront (by omega) hstop (by omega)
  rw [headerRegions, loadLE_fieldAt (by omega), C.ok_bind, loadLE_fieldAt (by omega),
    C.ok_bind, hone]
  dsimp only
  rw [if_neg hnum, htwo]
  dsimp only
  rw [hsoh, hthree]
  dsimp only
  rw [loadLE_fieldAt (by omega), ← hauth]
  rfl

/-- The regions of the headers, the sections in whatever order `qsort` leaves
them in and the extra data come out in the order of the file. -/
theorem bodyRegions_eq {lib : ParseLibrary} (hcalloc : lib.callocSorted = true)
    (hqsort : ∀ l, (lib.qsort l).Perm l) {order : List Extent}
    (hperm : order.Perm (sections image))
    (horder : Adjoins (sizeOfHeaders image) order (dataEnd image)) :
    bodyRegions lib image (3 + numberOfSections image + 1) (nt image)
        (headerExtents image) (authsz image)
      = .ok (some (headerExtents image ++ (order ++ extraExtents image))) := by
  have hlen := h.sizeOfHeaders_le
  have hlt := h.length_lt
  have htable := h.table_le
  obtain ⟨k, halign⟩ := h.fileAlignment
  have hordered : Ordered (headerExtents image ++ (order ++ extraExtents image)) :=
    (h.laidOut horder).1.pairwise
  rw [← List.append_assoc] at hordered
  have hfront : Ordered (headerExtents image ++ order) :=
    hordered.sublist (List.sublist_append_left _ _)
  have hopt : opt image = nt image + 24 := rfl
  have hstop := (security_ge image).2
  have hsecurity := h.security_le
  -- what is sorted
  obtain ⟨keys, hkeys⟩ : ∃ keys, (List.range (numberOfSections image)).map
      (fun j => (fieldAt image (sectionTable image + 40 * j + 12) 4,
        sectionTable image + 40 * j)) = keys := ⟨_, rfl⟩
  have hread : sectionKeys image (sectionTable image) (numberOfSections image) 0
      = .ok keys := by
    rw [sectionKeys_eq _ _ (by omega), ← List.range_eq_range', hkeys]
  have hheaders : keys.map Prod.snd = headers image := by
    rw [← hkeys, List.map_map]
    rfl
  have hin : ∀ key ∈ lib.qsort keys, key.2 + 24 ≤ image.length := by
    intro key hkey
    have hmem : key.2 ∈ headers image :=
      hheaders ▸ List.mem_map_of_mem ((hqsort keys).mem_iff.mp hkey)
    obtain ⟨j, hj, hkey⟩ := List.mem_map.mp hmem
    have := List.mem_range.mp hj
    omega
  obtain ⟨xs, hxs⟩ : ∃ xs, xs = ((lib.qsort keys).map (rawData image ·.2)).filter
      (·.2 ≠ 0) := ⟨_, rfl⟩
  have hxsperm : xs.Perm (sections image) := by
    rw [hxs, sections, ← hheaders, List.map_map]
    exact ((hqsort keys).map _).filter _
  have hsum : sizeOfHeaders image + (xs.map Prod.snd).sum = dataEnd image := by
    rw [(hxsperm.map Prod.snd).sum_nat, dataEnd]
  have hcount : xs.length ≤ numberOfSections image := by
    rw [hxsperm.length_eq, sections, ← List.length_range (n := numberOfSections image)]
    refine (List.length_filter_le _ _).trans (le_of_eq ?_)
    rw [List.length_map, headers, List.length_map]
  have happart : (headerExtents image ++ xs).Pairwise Apart := by
    refine ((hperm.trans hxsperm.symm).append_left _).pairwise ?_ Apart.symm
    exact hfront.imp fun h => .inl h
  obtain ⟨regs, hrun, hregs, hall⟩ := sectionRegions_ordered (lib.qsort keys)
    (headerExtents image) (sizeOfHeaders image) xs hin hxs
    (fun x hx => halign ▸ h.sizes x (hxsperm.mem_iff.mp hx))
    (hfront.sublist (List.sublist_append_left _ _)) happart
    (show 3 + xs.length ≤ 3 + numberOfSections image + 1 by omega)
  have heq : regs = headerExtents image ++ order :=
    hall.eq_of_perm hfront
      (hregs.trans ((hxsperm.trans hperm.symm).append_left _))
  have hsoh : fieldAt image (nt image + 24 + 60) 4 = sizeOfHeaders image := rfl
  have hfile : fieldAt image (nt image + 24 + 36) 4 = 2 ^ k := halign
  have hnum : fieldAt image (nt image + 6) 2 = numberOfSections image := rfl
  have htab : nt image + 24 + fieldAt image (nt image + 20) 2 = sectionTable image := rfl
  rw [bodyRegions]
  rw [loadLE_fieldAt (by omega), C.ok_bind, loadLE_fieldAt (by omega), C.ok_bind,
    loadLE_fieldAt (by omega), C.ok_bind, loadLE_fieldAt (by omega), C.ok_bind]
  rw [hsoh, hfile, hnum, htab]
  dsimp only
  rw [if_pos hcalloc, hread, C.ok_bind, hrun, C.ok_bind, hsum, heq]
  dsimp only
  unfold extraExtents at hordered ⊢
  split
  case isTrue hextra =>
      rw [if_pos hextra] at hordered
      have hlength : order.length ≤ numberOfSections image := by
        rw [hperm.length_eq, ← hxsperm.length_eq]
        exact hcount
      rw [efiImageRegionAdd_last _ (by omega) (by omega) hordered, List.append_assoc]
      · rfl
      · rw [List.length_append]
        show 3 + order.length < _
        omega
  case isFalse hextra => rw [List.append_nil]; rfl

end PeImage.WellFormed

/-- **The regions of a well-formed image are the whole of it**, in order, but
for the four bytes of the checksum, the eight of the directory entry of the
certificates and the certificates themselves. -/
theorem efiImageParse_digests (lib : ParseLibrary)
    (hregs : lib.callocRegs = true) (hsorted : lib.callocSorted = true)
    (hqsort : ∀ l, (lib.qsort l).Perm l) {image : List UInt8}
    (h : PeImage.WellFormed image) :
    ∃ regs, efiImageParse lib image = .ok (some regs) ∧
      (∀ r ∈ regs, r.stop ≤ image.length) ∧
      regs.flatMap (Extent.slice image) = PeImage.digested image := by
  obtain ⟨order, hperm, horder⟩ := h.contiguous
  have hbody := h.bodyRegions_eq hsorted hqsort hperm horder
  refine ⟨_, ?_, fun r hr => ?_, h.slices horder⟩
  · have hlt := h.length_lt
    have hlen := h.sizeOfHeaders_le
    have hstop := (PeImage.security_ge image).2
    have hsecurity := h.security_le
    have hopt : PeImage.opt image = PeImage.nt image + 24 := rfl
    have hnt : fieldAt image 0x3c 4 = PeImage.nt image := rfl
    have hsmall : ¬(image.length : ℤ) - 0x40 < (PeImage.nt image : ℤ) := by omega
    rw [efiImageParse, if_neg (by omega), loadLE_fieldAt (by omega), C.ok_bind, hnt,
      toLong_of_lt hlt, toLong_of_lt (by omega), if_neg hsmall, if_neg (by omega),
      loadLE_fieldAt (by omega), C.ok_bind]
    dsimp only
    rw [if_pos hregs, loadLE_fieldAt (by omega), C.ok_bind]
    have hmagic : fieldAt image (PeImage.nt image + 24) 2 = PeImage.magic image := rfl
    rw [hmagic]
    have hfirst (count directory : ℕ) (hcount : count + 4 ≤ directory)
        (hdirectories : 4 < fieldAt image (PeImage.opt image + count) 4)
        (hentry : PeImage.security image = (PeImage.opt image + directory + 32, 8)) :=
      h.headerRegions_eq (by omega : 3 ≤ 3 + PeImage.numberOfSections image + 1)
        hcount hdirectories hentry
    have hdirectories := h.directories
    have hnum : fieldAt image (PeImage.nt image + 6) 2
      = PeImage.numberOfSections image := rfl
    rw [hnum, ← hopt]
    rcases h.magic with hpe | hpe
    · rw [PeImage.directories, hpe, if_neg (by decide)] at hdirectories
      rw [hpe, if_neg (by decide), if_pos rfl, hfirst 92 96 (by decide) hdirectories
        (by rw [PeImage.security, hpe]; rfl), C.ok_bind]
      exact hbody
    · rw [PeImage.directories, hpe, if_pos rfl] at hdirectories
      rw [hpe, if_pos rfl, hfirst 108 112 (by decide) hdirectories
        (by rw [PeImage.security, hpe]; rfl), C.ok_bind]
      exact hbody
  · exact ((h.laidOut horder).1.bounds r hr).2.trans (Nat.sub_le _ _)

/-- The C library, with a stable sort. -/
def parseLibrary : ParseLibrary where
  callocRegs := true
  callocSorted := true
  qsort := fun keys => keys.mergeSort fun a b => a.1 ≤ b.1

/-- The header of a section: its address, and its raw data. -/
def sectionHeader (virtualAddress raw pointer : ℕ) : List UInt8 :=
  List.replicate 12 0 ++ leBytes 4 virtualAddress ++ leBytes 4 raw ++
    leBytes 4 pointer ++ List.replicate 16 0

/-- A PE32 image with two sections, the one of the lower address in front, then
four more bytes and eight of certificates. -/
def twoSections : List UInt8 :=
  -- DOS header, with the NT headers at 0x40
  [0x4d, 0x5a] ++ List.replicate 58 0 ++ leBytes 4 0x40 ++
  -- signature and file header (I386)
  [0x50, 0x45, 0, 0, 0x4c, 0x01] ++ leBytes 2 2 ++ List.replicate 12 0 ++
  leBytes 2 136 ++ [0, 0] ++
  -- optional header, with a FileAlignment of 16
  [0x0b, 0x01] ++ List.replicate 34 0 ++ leBytes 4 16 ++ List.replicate 20 0 ++
  leBytes 4 304 ++ [1, 2, 3, 4] ++ List.replicate 24 0 ++ leBytes 4 5 ++
  List.replicate 32 0 ++ leBytes 4 340 ++ leBytes 4 8 ++
  sectionHeader 0x2000 16 320 ++ sectionHeader 0x1000 16 304 ++
  List.replicate 16 0x11 ++ List.replicate 16 0x22 ++ List.replicate 4 0x33 ++
  List.replicate 8 0x44

theorem twoSections_wellFormed : PeImage.WellFormed twoSections where
  length_lt := by decide +kernel
  magic := by decide
  directories := by decide
  security_le := by decide
  table_le := by decide
  fileAlignment := ⟨4, by decide⟩
  sizes := by decide
  contiguous := by
    have hsections : PeImage.sections twoSections = [(320, 16), (304, 16)] := by
      decide
    have hheaders : PeImage.sizeOfHeaders twoSections = 304 := by decide
    have hend : PeImage.dataEnd twoSections = 336 := by decide
    rw [hsections, hheaders, hend]
    exact ⟨[(304, 16), (320, 16)], List.Perm.swap _ _ _, rfl, rfl, rfl⟩
  authsz_le := by decide +kernel

theorem efiImageParse_digests_twoSections :
    ∃ regs, efiImageParse parseLibrary twoSections = .ok (some regs) ∧
      (∀ r ∈ regs, r.stop ≤ twoSections.length) ∧
      regs.flatMap (Extent.slice twoSections) = PeImage.digested twoSections :=
  efiImageParse_digests parseLibrary rfl rfl
    (fun keys => List.mergeSort_perm keys _) twoSections_wellFormed

end Nawam
