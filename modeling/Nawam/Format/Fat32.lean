import Mathlib.Tactic.Ring
import Nawam.Base.Align
import Nawam.Base.Bytes

/-!
# The FAT32 geometry

`FormatLargeFAT32` of `format_fat32.c` from the drive's parameters to its
writes. The size of a FAT is a closed formula, evaluated before the reserved
area is known; that area is then grown until the clusters start on a 1 MB
boundary. `fat_room` is why the formula is large enough whatever the growth:
it counts the reserved sectors and the FATs themselves as clusters to map.

`DWORD` arithmetic is written out as arithmetic modulo `2 ^ 32`.
-/

namespace Nawam

/-! ## Source -/

/-- The ways out before the format is complete. -/
inductive Fat32Exit where
  | invalidParameter
  | invalidHandle
  | noGeometry
  | noPartitionInfo
  | tooSmall
  | tooBig
  | noMemory
  | tooManyClusters
  | tooFewClusters
  | fatTooSmall
  | cancelled
  | clearError
deriving DecidableEq, Repr

def Fat32Exit.message : Fat32Exit → Option String
  | .invalidParameter => none
  | .invalidHandle => some "Invalid logical volume handle"
  | .noGeometry => some "Failed to get device geometry (both regular and _ex)"
  | .noPartitionInfo => some "Failed to get partition info (both regular and _ex)"
  | .tooSmall => some "This drive is too small for FAT32 - there must be at least 64K clusters"
  | .tooBig => some "This drive is too big for FAT32 - max 2TB supported"
  | .noMemory => some "Failed to allocate memory"
  | .tooManyClusters => some "This drive has more than 2^28 clusters, try to specify a larger cluster size or use the default"
  | .tooFewClusters => some "FAT32 must have at least 65536 clusters, try to specify a smaller cluster size or use the default"
  | .fatTooSmall => some "This drive is too big for large FAT32 format"
  | .cancelled => none
  | .clearError => some "Error clearing reserved sectors"

/-- What the function is given and what it meets. -/
structure Fat32Env where
  /-- the first three bytes of `FSName` are `FAT` -/
  isFat : Bool
  /-- a logical volume handle was obtained -/
  volume : Bool
  /-- `dgDrive.BytesPerSector`, `none` if neither IOCTL answers -/
  bytesPerSector : Option ℕ
  /-- `piDrive.PartitionLength`, `none` if neither IOCTL answers -/
  partitionLength : Option ℕ
  /-- `ClusterSize`, 0 for the default -/
  clusterSize : ℕ
  /-- the allocations before and after the sanity checks -/
  calloc : Bool
  callocZero : Bool
  /-- the user has cancelled by the write at this sector -/
  cancelled : ℕ → Bool
  /-- `write_sectors` of the burst at this sector wrote all of it -/
  writeOk : ℕ → Bool

abbrev numFATs : ℕ := 2
abbrev backupBootSect : ℕ := 6
abbrev burstSize : ℕ := 128

def getFATSizeSectors (dskSize reservedSecCnt secPerClus fats bytesPerSect : ℕ) :
    C ℕ := do
  let numerator := ((dskSize + 2 ^ 32 - reservedSecCnt) % 2 ^ 32 +
    2 * secPerClus) % 2 ^ 64
  let denominator := secPerClus * bytesPerSect % 2 ^ 64 / 4 + fats
  let fatSz ← divide numerator denominator
  return (fatSz + 1) % 2 ^ 32

def defaultClusterSize (partitionLength : ℕ) : ℕ :=
  if partitionLength < 64 * 2 ^ 20 then 512
  else if partitionLength < 128 * 2 ^ 20 then 1024
  else if partitionLength < 256 * 2 ^ 20 then 2 * 1024
  else if partitionLength < 8 * 2 ^ 30 then 4 * 1024
  else if partitionLength < 16 * 2 ^ 30 then 8 * 1024
  else if partitionLength < 32 * 2 ^ 30 then 16 * 1024
  else if partitionLength < 2 * 2 ^ 40 then 32 * 1024
  else 64 * 1024

structure Fat32Geometry where
  bytesPerSect : ℕ
  totalSectors : ℕ
  fatSize : ℕ
  userAreaSize : ℕ
  clusterCount : ℕ
  sectorsPerCluster : ℕ
  reservedSectCount : ℕ
deriving DecidableEq, Repr

/-- The reserved sectors: the start of the clusters is moved up to a 1 MB
boundary. -/
def alignedReserved (bytesPerSect fatSize : ℕ) : C ℕ := do
  let systemAreaSize := (32 + numFATs * fatSize) % 2 ^ 32
  let alignSectors := 2 ^ 20 / bytesPerSect % 2 ^ 32
  let units ← divide ((systemAreaSize + alignSectors + 2 ^ 32 - 1) % 2 ^ 32)
    alignSectors
  let systemAreaSize := units * alignSectors % 2 ^ 32
  return (systemAreaSize + 2 ^ 32 - numFATs * fatSize % 2 ^ 32) % 2 ^ 32

def clusterSizeInUse (clusterSize partitionLength : ℕ) : ℕ :=
  if clusterSize = 0 then defaultClusterSize partitionLength else clusterSize

def sanityChecks (g : Fat32Geometry) : C (Except Fat32Exit Fat32Geometry) := do
  if 0x0FFFFFFF < g.clusterCount then return .error .tooManyClusters
  else if g.clusterCount < 65536 then return .error .tooFewClusters
  else
    let fatNeeded ← divide ((g.clusterCount * 4 + (g.bytesPerSect - 1)) % 2 ^ 64)
      g.bytesPerSect
    if g.fatSize < fatNeeded then return .error .fatTooSmall else return .ok g

/-- From the size of the partition to the sanity checks. -/
def fat32Geometry (bytesPerSect partitionLength clusterSize : ℕ)
    (calloc : Bool) : C (Except Fat32Exit Fat32Geometry) := do
  let qTotalSectors ← divide partitionLength bytesPerSect
  if qTotalSectors < 65536 then return .error .tooSmall
  else if 0xffffffff ≤ qTotalSectors then return .error .tooBig
  else if !calloc then return .error .noMemory
  else
    let sectorsPerCluster ←
      divide (clusterSizeInUse clusterSize partitionLength) bytesPerSect
    let totalSectors := qTotalSectors % 2 ^ 32
    -- wRsvdSecCnt is not set yet, bSecPerClus is a BYTE
    let fatSize ← getFATSizeSectors totalSectors 0 (sectorsPerCluster % 256)
      numFATs bytesPerSect
    let reservedSectCount ← alignedReserved bytesPerSect fatSize
    let userAreaSize := (totalSectors + 2 ^ 32 - reservedSectCount +
      2 ^ 32 - numFATs * fatSize % 2 ^ 32) % 2 ^ 32
    assertThat (0 < sectorsPerCluster)
    let clusterCount ← divide userAreaSize sectorsPerCluster
    sanityChecks ⟨bytesPerSect, totalSectors, fatSize, userAreaSize,
      clusterCount, sectorsPerCluster, reservedSectCount⟩

/-- `SystemAreaSize` for the zeroing: reserved sectors, FATs, root cluster. -/
def Fat32Geometry.systemAreaSize (g : Fat32Geometry) : ℕ :=
  (g.reservedSectCount + numFATs * g.fatSize + g.sectorsPerCluster) % 2 ^ 32

/-- A call of `write_sectors`: the first sector and the number of sectors. -/
abbrev SectorWrite : Type := ℕ × ℕ

/-- The zeroing loop from sector `i` on: its writes, and how it is left. -/
def clearLoop (env : Fat32Env) (limit : ℕ) :
    ℕ → ℕ → C (List SectorWrite × Option Fat32Exit)
  | 0, _ => .error .outOfFuel
  | fuel + 1, i =>
      if limit ≤ i then return ([], none)
      else if env.cancelled i then return ([], some .cancelled)
      else if !env.writeOk i then return ([(i, burstSize)], some .clearError)
      else do
        let (writes, left) ← clearLoop env limit fuel ((i + burstSize) % 2 ^ 32)
        return ((i, burstSize) :: writes, left)

/-- The boot sectors with their FSInfo, and the first sector of each FAT. -/
def Fat32Geometry.headerWrites (g : Fat32Geometry) : List SectorWrite :=
  [(0, 1), (1, 1), (backupBootSect, 1), (backupBootSect + 1, 1)] ++
    (List.range numFATs).map fun i => (g.reservedSectCount + i * g.fatSize, 1)

/-- What the function has done when it returns. -/
structure Fat32Format where
  /-- the sizes, once the function is committed -/
  geometry : Option Fat32Geometry
  cleared : List SectorWrite
  written : List SectorWrite
  left : Option Fat32Exit

def writeFAT32 (env : Fat32Env) (g : Fat32Geometry) : C Fat32Format := do
  if !env.callocZero then return ⟨some g, [], [], some .noMemory⟩
  else
    let limit := (g.systemAreaSize + burstSize - 1) % 2 ^ 32
    let (cleared, left) ← clearLoop env limit (limit / burstSize + 2) 0
    match left with
    | some why => return ⟨some g, cleared, [], some why⟩
    | none => return ⟨some g, cleared, g.headerWrites, none⟩

/-- The sector size in use. -/
def atLeast512 (bytesPerSector : ℕ) : ℕ :=
  if bytesPerSector < 512 then 512 else bytesPerSector

def formatLargeFAT32 (env : Fat32Env) : C Fat32Format := do
  if !env.isFat then return ⟨none, [], [], some .invalidParameter⟩
  else if !env.volume then return ⟨none, [], [], some .invalidHandle⟩
  else
    match env.bytesPerSector, env.partitionLength with
    | none, _ => return ⟨none, [], [], some .noGeometry⟩
    | some _, none => return ⟨none, [], [], some .noPartitionInfo⟩
    | some bytesPerSector, some partitionLength =>
        match ← fat32Geometry (atLeast512 bytesPerSector) partitionLength
          env.clusterSize env.calloc with
        | .error why => return ⟨none, [], [], some why⟩
        | .ok g => writeFAT32 env g

/-! ## The size of a FAT -/

/-- **A FAT has an entry for every cluster.** Here `q` entries fit a sector,
`s` sectors a cluster, and the clusters start behind `r` reserved sectors and
two FATs of `f` sectors. -/
theorem fat_room {t s q f r : ℕ} (hs : 0 < s) (hf : t + 2 * s < f * (s * q + 2))
    (hfits : r + 2 * f ≤ t) : (t - r - 2 * f) / s + 2 ≤ f * q := by
  by_contra hroom
  have hle : f * q ≤ (t - r - 2 * f) / s + 1 := by omega
  have hclusters : (t - r - 2 * f) / s * s ≤ t - r - 2 * f :=
    Nat.div_mul_le_self _ _
  have hmapped : f * q * s ≤ t - r - 2 * f + s := by
    calc f * q * s ≤ ((t - r - 2 * f) / s + 1) * s := Nat.mul_le_mul_right s hle
      _ = (t - r - 2 * f) / s * s + s := by ring
      _ ≤ t - r - 2 * f + s := Nat.add_le_add_right hclusters s
  have hexpand : f * (s * q + 2) = f * q * s + 2 * f := by ring
  omega

theorem getFATSizeSectors_of_le {t s bps : ℕ} (ht : t < 2 ^ 32) (hs : s ≤ 128)
    (hbps : bps ≤ 2 ^ 20) : getFATSizeSectors t 0 s numFATs bps
      = .ok ((t + 2 * s) / (s * bps / 4 + 2) + 1) := by
  have hbytes : s * bps ≤ 128 * 2 ^ 20 := Nat.mul_le_mul hs hbps
  have hden : s * bps % 2 ^ 64 = s * bps := Nat.mod_eq_of_lt (by omega)
  have hnum : ((t + 2 ^ 32 - 0) % 2 ^ 32 + 2 * s) % 2 ^ 64 = t + 2 * s := by
    rw [Nat.sub_zero, Nat.add_mod_right, Nat.mod_eq_of_lt ht,
      Nat.mod_eq_of_lt (by omega)]
  have hquot : (t + 2 * s) / (s * bps / 4 + 2) ≤ (t + 2 * s) / 2 :=
    Nat.div_le_div_left (Nat.le_add_left 2 _) (by decide)
  have hpos : 0 < s * bps / 4 + 2 := by omega
  simp only [getFATSizeSectors, numFATs, hden, hnum]
  rw [divide_of_pos hpos, C.ok_bind, C.pure_eq, Nat.mod_eq_of_lt (by omega)]

theorem fatSize_le {t s bps : ℕ} (hs₁ : 1 ≤ s) (hs₂ : s ≤ 128) (hbps : 512 ≤ bps) :
    (t + 2 * s) / (s * bps / 4 + 2) + 1 ≤ (t + 256) / 130 + 1 := by
  have hbytes : 1 * 512 ≤ s * bps := Nat.mul_le_mul hs₁ hbps
  apply Nat.succ_le_succ
  calc (t + 2 * s) / (s * bps / 4 + 2) ≤ (t + 2 * s) / 130 :=
        Nat.div_le_div_left (by omega) (by decide)
    _ ≤ (t + 256) / 130 := Nat.div_le_div_right (by omega)

/-- The growth of the reserved area, for an alignment of `a` sectors. -/
theorem alignedReserved_eq {bps a f : ℕ} (ha : 2 ^ 20 / bps = a)
    (ha₁ : 1 ≤ a) (ha₂ : a ≤ 2048) (hf : f < 2 ^ 30) :
    alignedReserved bps f = .ok (ceilAlign (32 + 2 * f) a - 2 * f) := by
  have hle : 32 + 2 * f ≤ ceilAlign (32 + 2 * f) a := le_ceilAlign _ ha₁
  have hlt : ceilAlign (32 + 2 * f) a < 32 + 2 * f + a := ceilAlign_lt _ ha₁
  have hsys : (32 + 2 * f) % 2 ^ 32 = 32 + 2 * f :=
    Nat.mod_eq_of_lt (by omega)
  have hunits : (32 + 2 * f + a + 2 ^ 32 - 1) % 2 ^ 32 = 32 + 2 * f + a - 1 := by
    rw [Nat.sub_add_comm (by omega), Nat.add_mod_right,
      Nat.mod_eq_of_lt (by omega)]
  have hwhole : (32 + 2 * f + a - 1) / a * a % 2 ^ 32
      = ceilAlign (32 + 2 * f) a := by
    rw [← ceilAlign, Nat.mod_eq_of_lt (by omega)]
  have hres : (ceilAlign (32 + 2 * f) a + 2 ^ 32 - 2 * f % 2 ^ 32) % 2 ^ 32
      = ceilAlign (32 + 2 * f) a - 2 * f := by
    rw [Nat.mod_eq_of_lt (by omega : 2 * f < 2 ^ 32),
      Nat.sub_add_comm (by omega), Nat.add_mod_right, Nat.mod_eq_of_lt (by omega)]
  simp only [alignedReserved, numFATs, hsys, ha,
    Nat.mod_eq_of_lt (by omega : a < 2 ^ 32), hunits]
  rw [divide_of_pos ha₁, C.ok_bind, hwhole, hres, C.pure_eq]

/-! ## The geometry -/

/-- What a geometry promises the file system that is laid out by it. -/
structure Fat32Geometry.Sound (g : Fat32Geometry) : Prop where
  fat_room : g.clusterCount + 2 ≤ g.fatSize * g.bytesPerSect / 4
  aligned : 2 ^ 20 ∣ (g.reservedSectCount + numFATs * g.fatSize) * g.bytesPerSect
  reserved_ge : 32 ≤ g.reservedSectCount
  reserved_lt : g.reservedSectCount < 2 ^ 16
  no_underflow : g.reservedSectCount + numFATs * g.fatSize + g.userAreaSize
    = g.totalSectors
  clusters : g.clusterCount = g.userAreaSize / g.sectorsPerCluster

/-- The sectors in front of the clusters, for `t` sectors of which `s` make a
cluster. -/
def systemSectors (bytesPerSect t s : ℕ) : ℕ :=
  ceilAlign (32 + 2 * ((t + 2 * s) / (s * bytesPerSect / 4 + 2) + 1)) (2 ^ 20 / bytesPerSect)

/-- The sizes for `t` sectors of `bps` bytes, `s` of them in a cluster: nothing
wraps. -/
theorem fat32Geometry_eq {bps len cs t s f : ℕ} (ht : len / bps = t)
    (hs : clusterSizeInUse cs len / bps = s) (ht₁ : 65536 ≤ t) (ht₂ : t < 0xffffffff)
    (hs₁ : 1 ≤ s) (hs₂ : s ≤ 128) (hbps₁ : 512 ≤ bps) (hbps₂ : bps ≤ 2 ^ 20)
    (hf : (t + 2 * s) / (s * bps / 4 + 2) + 1 = f) :
    32 + 2 * f ≤ systemSectors bps t s ∧ systemSectors bps t s < 2 * f + 2080 ∧
      systemSectors bps t s ≤ t ∧
      fat32Geometry bps len cs true = sanityChecks ⟨bps, t, f, t - systemSectors bps t s,
        (t - systemSectors bps t s) / s, s, systemSectors bps t s - 2 * f⟩ := by
  have ha₁ : 1 ≤ 2 ^ 20 / bps := (Nat.one_le_div_iff (by omega)).mpr hbps₂
  have ha₂ : 2 ^ 20 / bps ≤ 2048 :=
    (Nat.div_le_div_left hbps₁ (by decide)).trans_eq (show 2 ^ 20 / 512 = 2048 by decide)
  have hfle : f ≤ (t + 256) / 130 + 1 := hf ▸ fatSize_le hs₁ hs₂ hbps₁
  have hsystem : systemSectors bps t s = ceilAlign (32 + 2 * f) (2 ^ 20 / bps) := by
    rw [systemSectors, hf]
  have hceil₁ : 32 + 2 * f ≤ systemSectors bps t s := hsystem ▸ le_ceilAlign _ ha₁
  have hceil₂ : systemSectors bps t s < 32 + 2 * f + 2 ^ 20 / bps := hsystem ▸ ceilAlign_lt _ ha₁
  refine ⟨hceil₁, by omega, by omega, ?_⟩
  have huser : (t + 2 ^ 32 - (systemSectors bps t s - 2 * f) + 2 ^ 32 - 2 * f % 2 ^ 32) % 2 ^ 32
      = t - systemSectors bps t s := by
    rw [Nat.mod_eq_of_lt (by omega : 2 * f < 2 ^ 32)]
    omega
  have hsmod : s % 256 = s := Nat.mod_eq_of_lt (by omega)
  have htmod : t % 2 ^ 32 = t := Nat.mod_eq_of_lt (by omega)
  unfold fat32Geometry
  rw [divide_of_pos (by omega), ht, C.ok_bind, if_neg (by omega),
    if_neg (by omega), if_neg (by decide), divide_of_pos (by omega), hs,
    C.ok_bind]
  simp only [hsmod, htmod]
  rw [getFATSizeSectors_of_le (by omega) hs₂ hbps₂, C.ok_bind, hf,
    alignedReserved_eq rfl ha₁ ha₂ (by omega), C.ok_bind, ← hsystem]
  have hs₀ : 0 < s := hs₁
  simp only [numFATs, huser, decide_eq_true hs₀, assertThat_true, C.ok_bind]
  rw [divide_of_pos hs₀, C.ok_bind]

/-- The sizes for sectors of `4 * q` bytes, a power of two. -/
theorem fat32Geometry_sound {len cs t s q a : ℕ} (ht : len / (4 * q) = t)
    (hs : clusterSizeInUse cs len / (4 * q) = s) (ht₁ : 65536 ≤ t)
    (ht₂ : t < 0xffffffff) (hs₁ : 1 ≤ s) (hs₂ : s ≤ 128) (hq₁ : 128 ≤ q)
    (hq₂ : q ≤ 2 ^ 14) (ha : a * (4 * q) = 2 ^ 20) :
    ∃ g : Fat32Geometry, g.Sound ∧ g.sectorsPerCluster = s ∧
      g.totalSectors = t ∧ g.bytesPerSect = 4 * q ∧
      g.clusterCount = (t - systemSectors (4 * q) t s) / s ∧
      fat32Geometry (4 * q) len cs true = sanityChecks g := by
  have hquot : 2 ^ 20 / (4 * q) = a := by
    rw [← ha, Nat.mul_div_cancel _ (by omega)]
  have hentries : s * (4 * q) / 4 = s * q := by
    rw [Nat.mul_left_comm, Nat.mul_div_cancel_left _ (by decide)]
  obtain ⟨f, hf⟩ : ∃ f, (t + 2 * s) / (s * (4 * q) / 4 + 2) + 1 = f := ⟨_, rfl⟩
  obtain ⟨hceil₁, hceil₂, hfits, hgeometry⟩ :=
    fat32Geometry_eq ht hs ht₁ ht₂ hs₁ hs₂ (by omega) (by omega) hf
  have hfgt : t + 2 * s < f * (s * q + 2) := by
    have hpos : 0 < s * q + 2 := Nat.succ_pos _
    rw [hentries] at hf
    calc t + 2 * s < (s * q + 2) * ((t + 2 * s) / (s * q + 2) + 1) := Nat.lt_mul_div_succ _ hpos
      _ = f * (s * q + 2) := by rw [hf, Nat.mul_comm]
  have haligned : a ∣ systemSectors (4 * q) t s := by
    rw [systemSectors, hquot]
    exact dvd_ceilAlign _ _
  generalize systemSectors (4 * q) t s = area at hceil₁ hceil₂ hfits haligned hgeometry
  refine ⟨_, ⟨?_, ?_, ?_, ?_, ?_, rfl⟩, rfl, rfl, rfl, rfl, hgeometry⟩
  · have hbytes : f * (4 * q) / 4 = f * q := by
      rw [Nat.mul_left_comm, Nat.mul_div_cancel_left _ (by decide)]
    have hroom := fat_room hs₁ hfgt (r := area - 2 * f) (by omega)
    show (t - area) / s + 2 ≤ f * (4 * q) / 4
    rw [hbytes]
    rwa [Nat.sub_sub, Nat.sub_add_cancel (by omega)] at hroom
  · show 2 ^ 20 ∣ (area - 2 * f + 2 * f) * (4 * q)
    rw [Nat.sub_add_cancel (by omega), ← ha]
    exact Nat.mul_dvd_mul_right haligned _
  · show 32 ≤ area - 2 * f
    omega
  · show area - 2 * f < 2 ^ 16
    omega
  · show area - 2 * f + 2 * f + (t - area) = t
    omega

theorem sanityChecks_cases {g : Fat32Geometry} (hbps : 0 < g.bytesPerSect) :
    (∃ why, sanityChecks g = .ok (.error why)) ∨
      sanityChecks g = .ok (.ok g) ∧ 65536 ≤ g.clusterCount := by
  unfold sanityChecks
  by_cases hmany : 0x0FFFFFFF < g.clusterCount
  · exact Or.inl ⟨_, if_pos hmany⟩
  · by_cases hfew : g.clusterCount < 65536
    · exact Or.inl ⟨_, by rw [if_neg hmany, if_pos hfew]; rfl⟩
    · rw [if_neg hmany, if_neg hfew, divide_of_pos hbps, C.ok_bind]
      by_cases hroom : g.fatSize < (g.clusterCount * 4 + (g.bytesPerSect - 1))
          % 2 ^ 64 / g.bytesPerSect
      · exact Or.inl ⟨_, if_pos hroom⟩
      · exact Or.inr ⟨if_neg hroom, by omega⟩

/-! ## The writes -/

/-- The zeroing loop: each of its writes starts below the limit, and if
nothing stops it they cover everything up to the limit. -/
theorem clearLoop_covers (env : Fat32Env) {limit : ℕ}
    (hlimit : limit + burstSize ≤ 2 ^ 32) : ∀ fuel i, i < limit + burstSize →
    limit + burstSize ≤ i + fuel * burstSize →
    ∃ writes left, clearLoop env limit fuel i = .ok (writes, left) ∧
      (∀ w ∈ writes, w.2 = burstSize ∧ w.1 < limit) ∧
      (left = none → ∀ sector, i ≤ sector → sector < limit →
        ∃ w ∈ writes, w.1 ≤ sector ∧ sector < w.1 + w.2) := by
  intro fuel
  induction fuel with
  | zero =>
      intro i hi hfuel
      rw [Nat.zero_mul] at hfuel
      exact absurd hi (Nat.not_lt.mpr hfuel)
  | succ fuel ih =>
      intro i hi hfuel
      by_cases hdone : limit ≤ i
      · refine ⟨[], none, if_pos hdone, by simp, ?_⟩
        intro _ sector h₁ h₂
        omega
      · by_cases hcancel : env.cancelled i = true
        · refine ⟨[], some .cancelled, ?_, by simp, by simp⟩
          simp [clearLoop, hdone, hcancel]
        · by_cases hwrite : env.writeOk i = true
          · have hnext : (i + burstSize) % 2 ^ 32 = i + burstSize :=
              Nat.mod_eq_of_lt (by omega)
            obtain ⟨writes, left, hrun, hbound, hcover⟩ := ih (i + burstSize)
              (by omega) (by rw [Nat.succ_mul] at hfuel; omega)
            refine ⟨(i, burstSize) :: writes, left, ?_, ?_, ?_⟩
            · simp only [clearLoop, if_neg hdone, if_neg hcancel, hwrite,
                Bool.not_true, Bool.false_eq_true, if_false, hnext, hrun,
                C.ok_bind, C.pure_eq]
            · intro w hw
              rcases List.mem_cons.mp hw with rfl | hw
              · exact ⟨rfl, by omega⟩
              · exact hbound w hw
            · intro hleft sector h₁ h₂
              by_cases hhere : sector < i + burstSize
              · exact ⟨(i, burstSize), List.mem_cons_self, h₁, hhere⟩
              · obtain ⟨w, hw, hin⟩ := hcover hleft sector (by omega) h₂
                exact ⟨w, List.mem_cons_of_mem _ hw, hin⟩
          · refine ⟨[(i, burstSize)], some .clearError, ?_, ?_, by simp⟩
            · simp [clearLoop, hdone, hcancel, hwrite]
            · intro w hw
              rw [List.mem_singleton.mp hw]
              exact ⟨rfl, by omega⟩

/-- The writes of a format stay inside the partition, and unless the zeroing
is interrupted it reaches the reserved sectors, both FATs and the root
cluster. -/
structure Fat32Format.Fits (run : Fat32Format) (g : Fat32Geometry) : Prop where
  within : ∀ w ∈ run.cleared ++ run.written, w.1 + w.2 ≤ g.totalSectors
  cleared : run.left = none → ∀ sector,
    sector < g.reservedSectCount + numFATs * g.fatSize + g.sectorsPerCluster →
    ∃ w ∈ run.cleared, w.1 ≤ sector ∧ sector < w.1 + w.2

theorem writeFAT32_fits (env : Fat32Env) {g : Fat32Geometry} (hg : g.Sound)
    (hs₁ : 1 ≤ g.sectorsPerCluster) (hs₂ : g.sectorsPerCluster ≤ 128)
    (hcount : 65536 ≤ g.clusterCount) (htotal : g.totalSectors < 2 ^ 32) :
    ∃ run, writeFAT32 env g = .ok run ∧ run.geometry = some g ∧ run.Fits g := by
  have hsum := hg.no_underflow
  have hreserved := hg.reserved_ge
  simp only [numFATs] at hsum
  -- the clusters leave more room than the last burst can take
  have huser : 65536 * g.sectorsPerCluster ≤ g.userAreaSize := by
    calc 65536 * g.sectorsPerCluster
        ≤ g.userAreaSize / g.sectorsPerCluster * g.sectorsPerCluster := by
          rw [← hg.clusters]
          exact Nat.mul_le_mul_right _ hcount
      _ ≤ g.userAreaSize := Nat.div_mul_le_self _ _
  unfold writeFAT32
  by_cases hcalloc : env.callocZero = true
  · have hsystem : g.systemAreaSize
        = g.reservedSectCount + 2 * g.fatSize + g.sectorsPerCluster := by
      apply Nat.mod_eq_of_lt
      simp only [numFATs]
      omega
    set limit := g.systemAreaSize + 127 with hlimit
    have hburst : burstSize = 128 := rfl
    have hwrap : (g.systemAreaSize + burstSize - 1) % 2 ^ 32 = limit := by
      rw [hburst, Nat.mod_eq_of_lt (by omega)]
      rfl
    have hfuel : limit + 128 ≤ 0 + (limit / 128 + 2) * 128 := by omega
    have hlt : limit + burstSize ≤ 2 ^ 32 := by omega
    obtain ⟨cleared, left, hrun, hbound, hcover⟩ := clearLoop_covers env
      hlt (limit / burstSize + 2) 0 (by omega) hfuel
    have hcleared : ∀ w ∈ cleared, w.1 + w.2 ≤ g.totalSectors := by
      intro w hw
      obtain ⟨hsize, hlt⟩ := hbound w hw
      omega
    have hheader : ∀ w ∈ g.headerWrites, w.1 + w.2 ≤ g.totalSectors := by
      intro w hw
      simp only [Fat32Geometry.headerWrites, backupBootSect, numFATs,
        List.range_succ, List.range_zero, List.nil_append, List.cons_append,
        List.map_cons, List.map_nil, List.mem_cons, List.not_mem_nil,
        or_false] at hw
      rcases hw with rfl | rfl | rfl | rfl | rfl | rfl <;> simp only <;> omega
    simp only [hcalloc, Bool.not_true, Bool.false_eq_true, if_false, hwrap, hrun,
      C.ok_bind]
    cases left with
    | some why =>
        refine ⟨⟨some g, cleared, [], some why⟩, rfl, rfl, ?_, by simp⟩
        simpa using hcleared
    | none =>
        refine ⟨⟨some g, cleared, g.headerWrites, none⟩, rfl, rfl, ?_, ?_⟩
        · intro w hw
          rcases List.mem_append.mp hw with hw | hw
          · exact hcleared w hw
          · exact hheader w hw
        · intro _ sector hsector
          apply hcover rfl sector (Nat.zero_le _)
          simp only [numFATs] at hsector
          omega
  · refine ⟨⟨some g, [], [], some .noMemory⟩, by simp [hcalloc], rfl,
      by simp, by simp⟩

/-- **The FAT32 geometry is sound.** For every partition and sector sizes from
512 to 65536 bytes, with at most 128 sectors in a cluster, the function runs
without a fault; and once it is committed to its sizes, each FAT has an entry
for every cluster, the clusters start on a 1 MB boundary, the reserved
sectors are 32 or more and fit 16 bits, nothing has wrapped, and the writes
do what they are for without leaving the partition. -/
theorem formatLargeFAT32_geometry (env : Fat32Env) (bps len : ℕ)
    (hbps : env.bytesPerSector = some bps) (hlen : env.partitionLength = some len)
    (hpow : ∃ k, bps = 2 ^ k) (h512 : 512 ≤ bps) (h64k : bps ≤ 65536)
    (hspc₁ : 1 ≤ clusterSizeInUse env.clusterSize len / bps)
    (hspc₂ : clusterSizeInUse env.clusterSize len / bps ≤ 128) :
    ∃ run, formatLargeFAT32 env = .ok run ∧
      ∀ g, run.geometry = some g → g.Sound ∧ run.Fits g := by
  obtain ⟨k, rfl⟩ := hpow
  have hk₁ : 9 ≤ k := (Nat.pow_le_pow_iff_right (by decide : 1 < 2)).mp h512
  have hk₂ : k ≤ 16 := (Nat.pow_le_pow_iff_right (by decide : 1 < 2)).mp h64k
  obtain ⟨j, rfl⟩ : ∃ j, k = 2 + j := ⟨k - 2, by omega⟩
  have hsize : 2 ^ (2 + j) = 4 * 2 ^ j := by ring
  have hinUse : atLeast512 (2 ^ (2 + j)) = 2 ^ (2 + j) := if_neg (by omega)
  have hnothing : ∀ why, ∃ run : Fat32Format,
      (Except.ok ⟨none, [], [], some why⟩ : C Fat32Format) = .ok run ∧
      ∀ g, run.geometry = some g → g.Sound ∧ run.Fits g :=
    fun why => ⟨_, rfl, by simp⟩
  unfold formatLargeFAT32
  simp only [hbps, hlen, hinUse]
  split
  · exact hnothing _
  split
  · exact hnothing _
  set t := len / 2 ^ (2 + j) with ht
  have hstop : ∀ why, fat32Geometry (2 ^ (2 + j)) len env.clusterSize env.calloc
      = .ok (.error why) → ∃ run, ((do
        match ← fat32Geometry (2 ^ (2 + j)) len env.clusterSize env.calloc with
        | .error why => return ⟨none, [], [], some why⟩
        | .ok g => writeFAT32 env g) : C Fat32Format) = .ok run ∧
      ∀ g, run.geometry = some g → g.Sound ∧ run.Fits g := by
    intro why hwhy
    rw [hwhy]
    exact hnothing why
  have hdiv : divide len (2 ^ (2 + j)) = .ok t :=
    divide_of_pos (Nat.two_pow_pos _)
  by_cases hsmall : t < 65536
  · apply hstop .tooSmall
    rw [fat32Geometry, hdiv, C.ok_bind, if_pos hsmall]
    rfl
  by_cases hbig : 0xffffffff ≤ t
  · apply hstop .tooBig
    rw [fat32Geometry, hdiv, C.ok_bind, if_neg hsmall, if_pos hbig]
    rfl
  by_cases hcalloc : env.calloc = true
  · have hq : 2 ^ 7 ≤ 2 ^ j ∧ 2 ^ j ≤ 2 ^ 14 :=
      ⟨Nat.pow_le_pow_right (by decide) (by omega),
        Nat.pow_le_pow_right (by decide) (by omega)⟩
    have hmb : 2 ^ (18 - j) * (4 * 2 ^ j) = 2 ^ 20 := by
      rw [← hsize, ← pow_add]
      congr 1
      omega
    rw [hsize] at ht hspc₁ hspc₂
    obtain ⟨g, hsound, hs, htotal, hbytes, -, hgeometry⟩ :=
      fat32Geometry_sound ht.symm rfl (not_lt.mp hsmall) (not_le.mp hbig) hspc₁
        hspc₂ hq.1 hq.2 hmb
    rw [hcalloc, hsize, hgeometry]
    rcases sanityChecks_cases (g := g) (by rw [hbytes]; omega) with
      ⟨why, hwhy⟩ | ⟨hsane, hcount⟩
    · rw [hwhy]
      exact hnothing why
    · rw [hsane, C.ok_bind]
      obtain ⟨run, hrun, hrunGeometry, hfits⟩ := writeFAT32_fits env hsound
        (hs ▸ hspc₁) (hs ▸ hspc₂) hcount (by omega)
      refine ⟨run, hrun, ?_⟩
      intro g' hg'
      rw [hrunGeometry] at hg'
      cases hg'
      exact ⟨hsound, hfits⟩
  · apply hstop .noMemory
    rw [fat32Geometry, hdiv, C.ok_bind, if_neg hsmall, if_neg hbig,
      if_pos (by simpa using hcalloc)]
    rfl

/-- A partition of 1 GB with clusters of 4 KB, on a drive that takes every
write. -/
def gigabyteVolume : Fat32Env where
  isFat := true
  volume := true
  bytesPerSector := some 512
  partitionLength := some (2 ^ 30)
  clusterSize := 4096
  calloc := true
  callocZero := true
  cancelled := fun _ => false
  writeOk := fun _ => true

theorem formatLargeFAT32_geometry_gigabyte :
    ((formatLargeFAT32 gigabyteVolume).map Fat32Format.geometry
      = .ok (some ⟨512, 2097152, 2045, 2091008, 261376, 8, 2054⟩)) ∧
    ∃ run, formatLargeFAT32 gigabyteVolume = .ok run ∧
      ∀ g, run.geometry = some g → g.Sound ∧ run.Fits g :=
  ⟨by decide, formatLargeFAT32_geometry gigabyteVolume 512 (2 ^ 30) rfl
    rfl ⟨9, rfl⟩ (by decide) (by decide) (by decide) (by decide)⟩

end Nawam
