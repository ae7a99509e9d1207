import Nawam.Bled.Reader

/-!
# The size of a compressed disk image, from its partition table

Where a compressed file does not have the decompressed size, `bled_size.c` unpacks the
first 8192 bytes and takes the size from the partition table in them: the end of the
last of the four partitions of an MBR, or the address of the backup GPT.

The sector numbers of an MBR have 32 bits, and so has the arithmetic on them here, up to
the number of bytes. It wraps for a disk of 4 GB and more. That of a GPT has 64 bits.
-/

namespace Nawam

/-! ## Source -/

/-- `get_le32(&buf[0x1be + 0x10 * i + 8])`, the first sector of a partition -/
def mbrStart (buf : List UInt8) (i : ℕ) : ℕ := getLe 4 buf (0x1be + 0x10 * i + 8)

/-- `get_le32(&buf[0x1be + 0x10 * i + 0xc])`, the number of its sectors -/
def mbrLength (buf : List UInt8) (i : ℕ) : ℕ := getLe 4 buf (0x1be + 0x10 * i + 0xc)

/-- `max_lba` behind the loop over the partitions, a `uint32_t` -/
def maxLba (buf : List UInt8) : ℕ :=
  (List.range 4).foldl (fun m i => max m ((mbrStart buf i + mbrLength buf i) % 2 ^ 32)) 1

/-- The size from a protective MBR, `size` being what was unpacked -/
def gptSize (buf : List UInt8) (size : ℤ) : ℤ :=
  if Extent.slice buf (0x200, 8) = Ascii.text "EFI PART" then
    asInt64 ((getLe 8 buf 0x220 + 1) % 2 ^ 64 * 512 % 2 ^ 64)
  else if Extent.slice buf (0x1000, 8) = Ascii.text "EFI PART" then
    asInt64 ((getLe 8 buf 0x1020 + 1) % 2 ^ 64 * 4096 % 2 ^ 64)
  else size -- Could not locate primary GPT

def mbrSize (buf : List UInt8) : ℤ :=
  let size : ℕ := (maxLba buf + 1) % 2 ^ 32 * 512 % 2 ^ 32
  if size < 4096 then decompSizeUnknown else size

/-- `get_uncompressed_size_from_disk_image`, given what the unpacker returns and the
buffer that it has filled; an error that it finds goes to `out` at once. -/
def getUncompressedSizeFromDiskImage : Option (ℤ × List UInt8) → ℤ
  | none => decompSizeUnknown
  | some (size, buf) =>
      if size ≠ 8192 ∨ getLe 1 buf 0x1fe ≠ 0x55 ∨ getLe 1 buf 0x1ff ≠ 0xaa then
        decompSizeUnknown
      else if getLe 1 buf 0x1be = 0x00 ∧ getLe 1 buf 0x1c2 = 0xee then gptSize buf size
      else if getLe 1 buf 0x1be = 0x80 then mbrSize buf
      else size

/-! ## The disk -/

/-- The first 8192 bytes of a disk, with the boot signature -/
structure DiskStart where
  bytes : List UInt8
  length_eq : bytes.length = 8192
  signature : getLe 1 bytes 0x1fe = 0x55 ∧ getLe 1 bytes 0x1ff = 0xaa

namespace DiskStart

variable (d : DiskStart)

def ActiveMbr : Prop := getLe 1 d.bytes 0x1be = 0x80

def ProtectiveMbr : Prop := getLe 1 d.bytes 0x1be = 0x00 ∧ getLe 1 d.bytes 0x1c2 = 0xee

instance : Decidable d.ActiveMbr := inferInstanceAs (Decidable (_ = _))

instance : Decidable d.ProtectiveMbr := inferInstanceAs (Decidable (_ ∧ _))

/-- The end of the last partition, in sectors -/
def lastEnd : ℕ :=
  (List.range 4).foldl (fun m i => max m (mbrStart d.bytes i + mbrLength d.bytes i)) 0

/-- The size of a sector, by where the GPT header is -/
def gptSector : Option ℕ :=
  if Extent.slice d.bytes (0x200, 8) = Ascii.text "EFI PART" then some 512
  else if Extent.slice d.bytes (0x1000, 8) = Ascii.text "EFI PART" then some 4096
  else none

/-- The address of the backup GPT, in the header that starts with the second sector -/
def backupLba (sector : ℕ) : ℕ := getLe 8 d.bytes (sector + 0x20)

/-- The sizes that are exact: up to the end of the last partition, and at least eight
sectors; up to the backup GPT, or a negative number where that does not fit. -/
structure ExactSize (r : ℤ) : Prop where
  mbr : d.ActiveMbr →
    r = if 512 * (1 + d.lastEnd) < 4096 then decompSizeUnknown else (512 * (1 + d.lastEnd) : ℕ)
  gpt : d.ProtectiveMbr → ∀ sector, d.gptSector = some sector →
    ((d.backupLba sector + 1) * sector < 2 ^ 63 → r = ((d.backupLba sector + 1) * sector : ℕ)) ∧
    (0 ≤ r → r = ((d.backupLba sector + 1) * sector : ℕ))

end DiskStart

/-! ## Up to the last partition -/

theorem foldl_max_start (f : ℕ → ℕ) : ∀ (l : List ℕ) (a b : ℕ),
    l.foldl (fun m i => max m (f i)) (max a b) = max a (l.foldl (fun m i => max m (f i)) b)
  | [], _, _ => rfl
  | i :: l, a, b => by
      rw [List.foldl_cons, List.foldl_cons, max_assoc, foldl_max_start f l a]

theorem le_foldl_max (f : ℕ → ℕ) : ∀ {l : List ℕ} {a i : ℕ}, i ∈ l →
    f i ≤ l.foldl (fun m i => max m (f i)) a
  | j :: l, a, i, h => by
      rw [List.foldl_cons]
      rcases List.mem_cons.mp h with rfl | h
      · rw [max_comm, foldl_max_start]
        exact le_max_left ..
      · exact le_foldl_max f h

theorem foldl_max_congr {f g : ℕ → ℕ} {l : List ℕ} {a : ℕ} (h : ∀ i ∈ l, f i = g i) :
    l.foldl (fun m i => max m (f i)) a = l.foldl (fun m i => max m (g i)) a := by
  apply List.foldl_ext
  intro m i hi
  rw [h i hi]

namespace DiskStart

variable (d : DiskStart)

/-- The loop does not wrap where its result does not. -/
theorem maxLba_eq (h : d.lastEnd < 2 ^ 32) : maxLba d.bytes = max 1 d.lastEnd := by
  have hexact : ∀ i ∈ List.range 4, (mbrStart d.bytes i + mbrLength d.bytes i) % 2 ^ 32 =
      mbrStart d.bytes i + mbrLength d.bytes i := by
    intro i hi
    have hle : mbrStart d.bytes i + mbrLength d.bytes i ≤ d.lastEnd :=
      le_foldl_max (fun i => mbrStart d.bytes i + mbrLength d.bytes i) hi
    exact Nat.mod_eq_of_lt (lt_of_le_of_lt hle h)
  have hstart := foldl_max_start (fun i => mbrStart d.bytes i + mbrLength d.bytes i)
    (List.range 4) 1 0
  rw [maxLba, foldl_max_congr hexact]
  exact hstart

theorem mbrSize_iff : mbrSize d.bytes =
    (if 512 * (1 + d.lastEnd) < 4096 then decompSizeUnknown else (512 * (1 + d.lastEnd) : ℕ)) ↔
      512 * (1 + d.lastEnd) < 2 ^ 32 := by
  constructor
  · intro h
    by_contra hbig
    rw [mbrSize, if_neg (c := 512 * (1 + d.lastEnd) < 4096) (by omega)] at h
    have hlt : (maxLba d.bytes + 1) % 2 ^ 32 * 512 % 2 ^ 32 < 2 ^ 32 := Nat.mod_lt _ (by decide)
    split at h
    · rw [decompSizeUnknown] at h
      omega
    · omega
  · intro h
    have hmax : maxLba d.bytes = max 1 d.lastEnd := d.maxLba_eq (by omega)
    have hsize : (max 1 d.lastEnd + 1) % 2 ^ 32 * 512 % 2 ^ 32 = 512 * (1 + max 1 d.lastEnd) := by
      omega
    rw [mbrSize, hmax, hsize]
    by_cases hsmall : 512 * (1 + d.lastEnd) < 4096
    · rw [if_pos (by omega), if_pos hsmall]
    · have hone : max 1 d.lastEnd = d.lastEnd := by omega
      rw [hone, if_neg hsmall]

end DiskStart

/-! ## Up to the backup GPT -/

/-- The product as a `uint64_t`, for a sector size that divides 2^63 -/
theorem wrapped_size (n : ℕ) {k sector : ℕ} (hk : k * sector = 2 ^ 63) :
    n % 2 ^ 64 * sector % 2 ^ 64 = n % (2 * k) * sector := by
  have hmod : 2 ^ 64 = 2 * k * sector := by
    rw [Nat.mul_assoc, hk]
    rfl
  rw [Nat.mod_mul_mod, hmod, Nat.mul_mod_mul_right]

/-- The product is exact where it fits, and else it is not negative but for its top bit. -/
theorem asInt64_wrapped_iff (n : ℕ) {k sector : ℕ} (hk : k * sector = 2 ^ 63) :
    ((n * sector < 2 ^ 63 → asInt64 (n % 2 ^ 64 * sector % 2 ^ 64) = (n * sector : ℕ)) ∧
      (0 ≤ asInt64 (n % 2 ^ 64 * sector % 2 ^ 64) →
        asInt64 (n % 2 ^ 64 * sector % 2 ^ 64) = (n * sector : ℕ))) ↔
      n * sector < 2 ^ 63 ∨ k ≤ n % (2 * k) := by
  have hsector : 0 < sector := by
    rcases Nat.eq_zero_or_pos sector with rfl | hpos
    · omega
    · exact hpos
  have hwrapped := wrapped_size n hk
  have hlt : n % 2 ^ 64 * sector % 2 ^ 64 < 2 ^ 64 := Nat.mod_lt _ (by decide)
  have htop : n % (2 * k) * sector < 2 ^ 63 ↔ n % (2 * k) < k := by
    rw [← hk]
    exact Nat.mul_lt_mul_right hsector
  rw [hwrapped] at hlt ⊢
  by_cases hfit : n * sector < 2 ^ 63
  · have hn : n < k := by
      rw [← hk] at hfit
      exact Nat.lt_of_mul_lt_mul_right hfit
    have hmod : n % (2 * k) = n := Nat.mod_eq_of_lt (by omega)
    rw [hmod, asInt64_of_lt hfit]
    exact ⟨fun _ => Or.inl hfit, fun _ => ⟨fun _ => rfl, fun _ => rfl⟩⟩
  · have hsmall : 0 ≤ asInt64 (n % (2 * k) * sector) ↔ n % (2 * k) < k :=
      (asInt64_nonneg_iff hlt).trans htop
    constructor
    · rintro ⟨-, hright⟩
      refine Or.inr (Nat.le_of_not_lt fun hk => hfit ?_)
      have heq := hright (hsmall.mpr hk)
      rw [asInt64_of_lt (htop.mpr hk)] at heq
      have hnat := Int.ofNat_inj.mp heq
      have hbelow := htop.mpr hk
      omega
    · rintro (h | h)
      · exact absurd h hfit
      · exact ⟨fun h => absurd h hfit, fun hneg => absurd (hsmall.mp hneg) (Nat.not_lt_of_le h)⟩

/-! ## The size that is returned -/

namespace DiskStart

variable (d : DiskStart)

theorem gptSize_eq {sector : ℕ} {size : ℤ} (h : d.gptSector = some sector) :
    gptSize d.bytes size =
      asInt64 ((d.backupLba sector + 1) % 2 ^ 64 * sector % 2 ^ 64) := by
  rw [gptSector] at h
  rw [gptSize]
  split at h
  · rw [if_pos ‹_›, ← Option.some_inj.mp h]
    rfl
  · split at h
    · rw [if_neg ‹_›, if_pos ‹_›, ← Option.some_inj.mp h]
      rfl
    · cases h

theorem sector_dvd {sector : ℕ} (h : d.gptSector = some sector) :
    2 ^ 63 / sector * sector = 2 ^ 63 ∧ 2 * (2 ^ 63 / sector) = 2 ^ 64 / sector := by
  rw [gptSector] at h
  split at h
  · rw [← Option.some_inj.mp h]
    decide
  · split at h
    · rw [← Option.some_inj.mp h]
      decide
    · cases h

/-- The sizes are exact for an MBR whose last partition ends below 4 GB, less one sector,
and for a GPT whose disk is smaller than 2^63 bytes, or so large that it comes out
negative. -/
theorem exactSize_iff : d.ExactSize (getUncompressedSizeFromDiskImage (some (8192, d.bytes))) ↔
    (d.ActiveMbr → 512 * (1 + d.lastEnd) < 2 ^ 32) ∧
      (d.ProtectiveMbr → ∀ sector, d.gptSector = some sector →
        (d.backupLba sector + 1) * sector < 2 ^ 63 ∨
          2 ^ 63 / sector ≤ (d.backupLba sector + 1) % (2 ^ 64 / sector)) := by
  have hresult : getUncompressedSizeFromDiskImage (some (8192, d.bytes)) =
      if d.ProtectiveMbr then gptSize d.bytes 8192
      else if d.ActiveMbr then mbrSize d.bytes else 8192 := by
    rw [getUncompressedSizeFromDiskImage, if_neg]
    · rfl
    · rw [d.signature.1, d.signature.2]
      decide
  have hmbr (hactive : d.ActiveMbr) :
      getUncompressedSizeFromDiskImage (some (8192, d.bytes)) = mbrSize d.bytes := by
    have hnot : ¬ d.ProtectiveMbr := by
      rintro ⟨hzero, -⟩
      rw [ActiveMbr, hzero] at hactive
      exact absurd hactive (by decide)
    rw [hresult, if_neg hnot, if_pos hactive]
  have hgpt (hprotective : d.ProtectiveMbr) {sector : ℕ} (hsector : d.gptSector = some sector) :=
    calc getUncompressedSizeFromDiskImage (some (8192, d.bytes))
      _ = gptSize d.bytes 8192 := by rw [hresult, if_pos hprotective]
      _ = asInt64 ((d.backupLba sector + 1) % 2 ^ 64 * sector % 2 ^ 64) := d.gptSize_eq hsector
  constructor
  · rintro ⟨h₁, h₂⟩
    refine ⟨fun hactive => d.mbrSize_iff.mp (hmbr hactive ▸ h₁ hactive), ?_⟩
    intro hprotective sector hsector
    obtain ⟨hdvd, hhalf⟩ := d.sector_dvd hsector
    have hright := h₂ hprotective sector hsector
    rw [hgpt hprotective hsector, asInt64_wrapped_iff _ hdvd, hhalf] at hright
    exact hright
  · rintro ⟨h₁, h₂⟩
    refine ⟨fun hactive => (hmbr hactive).trans (d.mbrSize_iff.mpr (h₁ hactive)), ?_⟩
    intro hprotective sector hsector
    obtain ⟨hdvd, hhalf⟩ := d.sector_dvd hsector
    rw [hgpt hprotective hsector, asInt64_wrapped_iff _ hdvd, hhalf]
    exact h₂ hprotective sector hsector

end DiskStart

set_option maxRecDepth 100000 in
/-- A disk with one active partition, up to 5 GB -/
def fiveGigabytes : DiskStart where
  bytes := List.replicate 0x1be 0 ++ ([0x80, 0x20, 0x21, 0x00, 0x0c, 0xfe, 0xff, 0xff,
    0x00, 0x08, 0x00, 0x00, 0x00, 0xf8, 0x9f, 0x00] ++ (List.replicate 48 0
      ++ ([0x55, 0xaa] ++ List.replicate 7680 0)))
  length_eq := by simp only [List.length_append, List.length_replicate, List.length_cons,
    List.length_nil]
  signature := by decide

set_option maxRecDepth 100000 in
/-- The size comes out as one of 1 GB. -/
theorem fiveGigabytes_not_exact :
    ¬ fiveGigabytes.ExactSize
      (getUncompressedSizeFromDiskImage (some (8192, fiveGigabytes.bytes))) := by
  intro h
  exact absurd (h.mbr (by decide)) (by decide)

end Nawam
