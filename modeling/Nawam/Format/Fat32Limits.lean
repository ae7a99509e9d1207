import Nawam.Base.Ensures
import Nawam.Format.Fat32

/-!
# Limits of the cluster count

The cluster count of `FormatLargeFAT32` is checked against `0x0FFFFFFF` and
65536. The clusters are numbered from 2 on, so that the upper limit lets numbers
through that are marks in a FAT (`clusterNumbers_legal_iff`). The lower limit
refuses some volumes for the cluster size that is the default for them: those
that are longer than a threshold by less than the FATs and the alignment take
(`defaultCluster_works_iff`).
-/

namespace Nawam

/-! ## What is accepted -/

variable {g g' : Fat32Geometry} {bps len cs : ℕ} {calloc : Bool}

theorem sanityChecks_same (h : sanityChecks g = .ok (.ok g')) : g' = g := by
  unfold sanityChecks at h
  split at h
  case isTrue => cases Except.ok.inj h
  case isFalse =>
  split at h
  case isTrue => cases Except.ok.inj h
  case isFalse =>
  obtain ⟨needed, -, h⟩ := C.bind_eq_ok.mp h
  split at h
  case isTrue => cases Except.ok.inj h
  case isFalse => exact (Except.ok.inj (Except.ok.inj h)).symm

theorem divide_ok {a b c : ℕ} (h : divide a b = .ok c) : 0 < b ∧ c = a / b := by
  unfold divide at h
  split at h
  case isTrue => cases h
  case isFalse hb => exact ⟨Nat.pos_of_ne_zero hb, (Except.ok.inj h).symm⟩

theorem fat32Geometry_accepted (h : fat32Geometry bps len cs calloc = .ok (.ok g)) :
    65536 ≤ len / bps ∧ len / bps < 0xffffffff ∧ calloc = true ∧ bps ≤ 2 ^ 20 ∧
      0 < clusterSizeInUse cs len / bps ∧
      g.clusterCount < 2 ^ 32 / (clusterSizeInUse cs len / bps) + 1 := by
  unfold fat32Geometry at h
  obtain ⟨t, ht, h⟩ := C.bind_eq_ok.mp h
  obtain ⟨hbps, rfl⟩ := divide_ok ht
  split at h
  case isTrue => cases Except.ok.inj h
  case isFalse hsmall =>
  split at h
  case isTrue => cases Except.ok.inj h
  case isFalse hbig =>
  split at h
  case isTrue => cases Except.ok.inj h
  case isFalse hcalloc =>
  obtain ⟨s, hs, h⟩ := C.bind_eq_ok.mp h
  obtain ⟨-, rfl⟩ := divide_ok hs
  obtain ⟨fatSize, -, h⟩ := C.bind_eq_ok.mp h
  obtain ⟨reserved, hreserved, h⟩ := C.bind_eq_ok.mp h
  obtain ⟨-, hassert, h⟩ := C.bind_eq_ok.mp h
  obtain ⟨count, hcount, h⟩ := C.bind_eq_ok.mp h
  obtain ⟨hs₀, hcount⟩ := divide_ok hcount
  rw [sanityChecks_same h]
  refine ⟨by omega, by omega, by simpa using hcalloc, ?_, hs₀, ?_⟩
  · unfold alignedReserved at hreserved
    obtain ⟨units, hunits, -⟩ := C.bind_eq_ok.mp hreserved
    have hpos := (divide_ok hunits).1
    by_contra hlarge
    rw [Nat.div_eq_of_lt (Nat.lt_of_not_le hlarge)] at hpos
    exact absurd hpos (by decide)
  · show count < _
    rw [hcount]
    exact Nat.lt_succ_of_le (Nat.div_le_div_right (Nat.le_of_lt (Nat.mod_lt _ (by decide))))

/-- The geometry that a run lays out is the one it started with. -/
theorem writeFAT32_geometry {env : Fat32Env} {run : Fat32Format}
    (h : writeFAT32 env g = .ok run) : run.geometry = some g := by
  unfold writeFAT32 at h
  split at h
  case isTrue => exact (Except.ok.inj h) ▸ rfl
  case isFalse =>
    obtain ⟨cleared, -, h⟩ := C.bind_eq_ok.mp h
    cases hleft : cleared.2 with
    | some why =>
        simp only [hleft] at h
        exact (Except.ok.inj h) ▸ rfl
    | none =>
        simp only [hleft] at h
        exact (Except.ok.inj h) ▸ rfl

theorem formatLargeFAT32_accepted {env : Fat32Env} {run : Fat32Format}
    (hbps : env.bytesPerSector = some bps) (hlen : env.partitionLength = some len)
    (h : formatLargeFAT32 env = .ok run) (hg : run.geometry = some g) :
    fat32Geometry (atLeast512 bps) len env.clusterSize env.calloc = .ok (.ok g) := by
  unfold formatLargeFAT32 at h
  simp only [hbps, hlen] at h
  split at h
  case isTrue =>
    rw [← Except.ok.inj h] at hg
    cases hg
  case isFalse =>
  split at h
  case isTrue =>
    rw [← Except.ok.inj h] at hg
    cases hg
  case isFalse =>
  obtain ⟨answer, hanswer, h⟩ := C.bind_eq_ok.mp h
  cases answer with
  | error why =>
      rw [← Except.ok.inj h] at hg
      cases hg
  | ok g' =>
      rw [writeFAT32_geometry h] at hg
      rw [hanswer, Option.some.inj hg]

/-- A geometry that is accepted is laid out. -/
theorem formatLargeFAT32_eq {env : Fat32Env} (hfat : env.isFat = true)
    (hvolume : env.volume = true) (hbps : env.bytesPerSector = some bps)
    (hlen : env.partitionLength = some len)
    (h : fat32Geometry (atLeast512 bps) len env.clusterSize env.calloc = .ok (.ok g)) :
    formatLargeFAT32 env = writeFAT32 env g := by
  simp [formatLargeFAT32, hfat, hvolume, hbps, hlen, h]

/-! ## The highest cluster number -/

/-- `0x0FFFFFF7` marks a bad cluster, and what is above it ends a chain. No
cluster has such a number exactly if the sectors behind the FATs are too few
for it. -/
theorem clusterNumbers_legal_iff (env : Fat32Env) (run : Fat32Format) (g : Fat32Geometry)
    (bps len : ℕ) (hbps : env.bytesPerSector = some bps)
    (hlen : env.partitionLength = some len) (h : formatLargeFAT32 env = .ok run)
    (hg : run.geometry = some g) :
    g.clusterCount + 1 < 0x0FFFFFF7 ↔
      len / atLeast512 bps <
        systemSectors (atLeast512 bps) (len / atLeast512 bps)
            (clusterSizeInUse env.clusterSize len / atLeast512 bps) +
          clusterSizeInUse env.clusterSize len / atLeast512 bps * 0x0FFFFFF6 := by
  have haccepted := formatLargeFAT32_accepted hbps hlen h hg
  obtain ⟨ht₁, ht₂, hcalloc, hbps₂, hs₁, hcount⟩ := fat32Geometry_accepted haccepted
  have hbps₁ : 512 ≤ atLeast512 bps := by
    unfold atLeast512
    split <;> omega
  obtain ⟨t, ht⟩ : ∃ t, len / atLeast512 bps = t := ⟨_, rfl⟩
  obtain ⟨s, hs⟩ : ∃ s, clusterSizeInUse env.clusterSize len / atLeast512 bps = s := ⟨_, rfl⟩
  rw [ht, hs]
  rw [ht] at ht₁ ht₂
  rw [hs] at hs₁ hcount
  by_cases hs₂ : s ≤ 128
  · obtain ⟨-, -, hfits, hgeometry⟩ :=
      fat32Geometry_eq ht hs ht₁ ht₂ hs₁ hs₂ hbps₁ hbps₂ rfl
    rw [hcalloc, hgeometry] at haccepted
    rw [sanityChecks_same haccepted]
    show (t - systemSectors (atLeast512 bps) t s) / s + 1 < 0x0FFFFFF7 ↔ _
    have hdiv := Nat.div_lt_iff_lt_mul (k := s) hs₁
      (x := t - systemSectors (atLeast512 bps) t s) (y := 0x0FFFFFF6)
    have hmul : s * 0x0FFFFFF6 = 0x0FFFFFF6 * s := Nat.mul_comm ..
    rw [hmul]
    omega
  · -- clusters of so many sectors are too few for the marks
    have hfew : 2 ^ 32 / s ≤ 2 ^ 32 / 129 := Nat.div_le_div_left (by omega) (by decide)
    have hmarks : 2 ^ 32 / 129 + 2 < 0x0FFFFFF7 := by decide
    exact iff_of_true (by omega) (by omega)

/-- A partition of 1 GB with clusters of 4 KB; the sector of zeroes is not
allocated. -/
theorem clusterNumbers_legal_iff_gigabyte :
    261376 + 1 < 0x0FFFFFF7 ↔ 2097152 < systemSectors 512 2097152 8 + 8 * 0x0FFFFFF6 :=
  clusterNumbers_legal_iff { gigabyteVolume with callocZero := false }
    ⟨some ⟨512, 2097152, 2045, 2091008, 261376, 8, 2054⟩, [], [], some .noMemory⟩
    ⟨512, 2097152, 2045, 2091008, 261376, 8, 2054⟩ 512 (2 ^ 30) rfl rfl rfl rfl

/-- A partition of 1.002 TB in sectors of 512 bytes, with clusters of 4 KB, the
drive taking every write. -/
def terabyteVolume : Fat32Env :=
  { gigabyteVolume with partitionLength := some (2151679920 * 512) }

/-- What is accepted for it. -/
theorem fat32Geometry_terabyte :
    fat32Geometry 512 (2151679920 * 512) 4096 true =
      .ok (.ok ⟨512, 2151679920, 2097154, 2147483568, 268435446, 8, 2044⟩) := by
  have hsectors : 2151679920 * 512 / 512 = 2151679920 := rfl
  have hcluster : clusterSizeInUse 4096 (2151679920 * 512) / 512 = 8 := rfl
  obtain ⟨-, -, -, hgeometry⟩ := fat32Geometry_eq hsectors hcluster (by decide) (by decide)
    (by decide) (by decide) (by decide) (by decide) rfl
  rw [hgeometry]
  rfl

/-- Its clusters are numbered up to the mark of a bad one. -/
theorem clusterNumbers_terabyte : ∃ run g, formatLargeFAT32 terabyteVolume = .ok run ∧
    run.geometry = some g ∧ g.clusterCount + 1 = 0x0FFFFFF7 := by
  obtain ⟨run, hrun, hg, -⟩ := writeFAT32_fits terabyteVolume
    (g := ⟨512, 2151679920, 2097154, 2147483568, 268435446, 8, 2044⟩)
    ⟨by decide, ⟨2049, rfl⟩, by decide, by decide, rfl, rfl⟩
    (by decide) (by decide) (by decide) (by decide)
  refine ⟨run, _, ?_, hg, rfl⟩
  have haccepted : fat32Geometry (atLeast512 512) (2151679920 * 512) terabyteVolume.clusterSize
      terabyteVolume.calloc = .ok (.ok _) := fat32Geometry_terabyte
  exact (formatLargeFAT32_eq rfl rfl rfl rfl haccepted).trans hrun

/-! ## The default cluster size -/

/-- A sound geometry fails the checks for its cluster count only. -/
theorem sanityChecks_of_sound (hg : g.Sound) (hbps : 0 < g.bytesPerSect)
    (hmin : 65536 ≤ g.clusterCount) (hmax : g.clusterCount ≤ 0x0FFFFFFF)
    (hbps₂ : g.bytesPerSect ≤ 2 ^ 20) : sanityChecks g = .ok (.ok g) := by
  have hroom := hg.fat_room
  have hneeded : (g.clusterCount * 4 + (g.bytesPerSect - 1)) / g.bytesPerSect ≤ g.fatSize := by
    have hsucc : (g.fatSize + 1) * g.bytesPerSect = g.fatSize * g.bytesPerSect + g.bytesPerSect :=
      Nat.succ_mul ..
    refine Nat.lt_succ_iff.mp ((Nat.div_lt_iff_lt_mul hbps).mpr ?_)
    show _ < (g.fatSize + 1) * g.bytesPerSect
    omega
  unfold sanityChecks
  rw [if_neg (by omega), if_neg (by omega), divide_of_pos hbps, C.ok_bind,
    Nat.mod_eq_of_lt (by omega), if_neg (by omega)]
  rfl

theorem default_sectors {t : ℕ} (ht : len / 512 = t) (hmax : t < 0xffffffff) :
    clusterSizeInUse 0 len / 512 =
      if t < 2 ^ 17 then 1 else if t < 2 ^ 18 then 2 else if t < 2 ^ 19 then 4
      else if t < 2 ^ 24 then 8 else if t < 2 ^ 25 then 16 else if t < 2 ^ 26 then 32
      else 64 := by
  have h64 : len < 64 * 2 ^ 20 ↔ t < 2 ^ 17 := by omega
  have h128 : len < 128 * 2 ^ 20 ↔ t < 2 ^ 18 := by omega
  have h256 : len < 256 * 2 ^ 20 ↔ t < 2 ^ 19 := by omega
  have h8 : len < 8 * 2 ^ 30 ↔ t < 2 ^ 24 := by omega
  have h16 : len < 16 * 2 ^ 30 ↔ t < 2 ^ 25 := by omega
  have h32 : len < 32 * 2 ^ 30 ↔ t < 2 ^ 26 := by omega
  have hlast : len < 2 * 2 ^ 40 := by omega
  rw [clusterSizeInUse, if_pos rfl, defaultClusterSize, if_pos hlast]
  simp only [h64, h128, h256, h8, h16, h32, apply_ite (· / 512)]

/-- The partition is longer than 32, 64, 128 or 256 MB by less than a MB, in
sectors of 512 bytes. -/
def JustAbove (t : ℕ) : Prop := ∃ k, 16 ≤ k ∧ k ≤ 19 ∧ 2 ^ k ≤ t ∧ t < 2 ^ k + 2048

theorem justAbove_iff (t : ℕ) : JustAbove t ↔ 65536 ≤ t ∧ t < 67584 ∨ 131072 ≤ t ∧ t < 133120 ∨
    262144 ≤ t ∧ t < 264192 ∨ 524288 ≤ t ∧ t < 526336 := by
  constructor
  · rintro ⟨k, h16, h19, hmin, hmax⟩
    obtain rfl | rfl | rfl | rfl : k = 16 ∨ k = 17 ∨ k = 18 ∨ k = 19 := by omega
    all_goals omega
  · rintro (h | h | h | h)
    · exact ⟨16, by decide, by decide, h⟩
    · exact ⟨17, by decide, by decide, h⟩
    · exact ⟨18, by decide, by decide, h⟩
    · exact ⟨19, by decide, by decide, h⟩

/-- The clusters are enough where there is a MB in front of the least number of them: what
else the FATs take of a longer partition is less than what they have the clusters for. -/
theorem enoughClusters_iff {t s : ℕ} (hs : 1 ≤ s) :
    65536 ≤ (t - systemSectors 512 t s) / s ↔ 65536 * s + 2048 ≤ t := by
  obtain ⟨f, hf⟩ : ∃ f, (t + 2 * s) / (s * 512 / 4 + 2) + 1 = f := ⟨_, rfl⟩
  have hsystem : systemSectors 512 t s = ceilAlign (32 + 2 * f) 2048 := by
    rw [systemSectors, hf]
    rfl
  have hmin : 2048 ≤ systemSectors 512 t s := by
    rw [hsystem]
    exact Nat.le_of_dvd (ceilAlign_pos (by decide) (by omega)) (dvd_ceilAlign ..)
  rw [Nat.le_div_iff_mul_le hs]
  constructor
  · intro h
    omega
  · intro h
    rcases Nat.lt_or_ge 1008 f with hlarge | hsmall
    · have hmax : systemSectors 512 t s < 32 + 2 * f + 2048 :=
        hsystem ▸ ceilAlign_lt _ (by decide)
      have hwords : s * 512 / 4 = 128 * s := by omega
      rw [hwords] at hf
      have hquot : 1008 ≤ (t + 2 * s) / (128 * s + 2) := by omega
      have hlong : 1008 * (128 * s + 2) ≤ t + 2 * s :=
        (Nat.le_div_iff_mul_le (Nat.succ_pos _)).mp hquot
      have hfats : (t + 2 * s) / (128 * s + 2) ≤ (t + 2 * s) / 130 :=
        Nat.div_le_div_left (by omega) (by decide)
      omega
    · have hmax : systemSectors 512 t s ≤ 2048 :=
        hsystem ▸ ceilAlign_le (by decide) (Nat.dvd_refl 2048) (by omega)
      omega

/-- The number of clusters that the default makes. -/
theorem default_count {t s : ℕ} (ht : len / 512 = t) (hmin : 65536 ≤ t) (hmax : t < 0xffffffff)
    (hs : clusterSizeInUse 0 len / 512 = s) :
    1 ≤ s ∧ s ≤ 128 ∧ (t - systemSectors 512 t s) / s ≤ 0x0FFFFFFF ∧
      (65536 ≤ (t - systemSectors 512 t s) / s ↔ ¬JustAbove t) := by
  rw [default_sectors ht hmax] at hs
  -- the largest partition for each size of the clusters
  obtain ⟨hpos, hmost, hfew, hjust⟩ : 1 ≤ s ∧ s ≤ 128 ∧ (t < 2 ^ 28 ∨ 16 ≤ s) ∧
      (65536 * s + 2048 ≤ t ↔ ¬JustAbove t) := by
    rw [justAbove_iff]
    subst hs
    split_ifs <;> omega
  refine ⟨hpos, hmost, ?_, (enoughClusters_iff hpos).trans hjust⟩
  rcases hfew with hshort | hlarge
  · have hle := Nat.div_le_self (t - systemSectors 512 t s) s
    omega
  · have hle : (t - systemSectors 512 t s) / s ≤ (t - systemSectors 512 t s) / 16 :=
      Nat.div_le_div_left hlarge (by decide)
    omega

/-- The volume is laid out with the default, and its clusters are neither too
many nor too few. -/
def DefaultWorks (env : Fat32Env) : Prop :=
  ∃ run g, formatLargeFAT32 env = .ok run ∧ run.geometry = some g ∧
    65536 ≤ g.clusterCount ∧ g.clusterCount ≤ 0x0FFFFFFF

/-- On a drive with sectors of 512 bytes the default works for every partition
that passes the checks of its length, except for those that are just above a
threshold. -/
theorem defaultCluster_works_iff (env : Fat32Env) (len : ℕ) (hfat : env.isFat = true)
    (hvolume : env.volume = true) (hcalloc : env.calloc = true)
    (hbps : env.bytesPerSector = some 512) (hlen : env.partitionLength = some len)
    (hdefault : env.clusterSize = 0) (hmin : 65536 ≤ len / 512) (hmax : len / 512 < 0xffffffff) :
    DefaultWorks env ↔ ¬JustAbove (len / 512) := by
  obtain ⟨hs₁, hs₂, hupper, hlower⟩ := default_count rfl hmin hmax rfl
  obtain ⟨g, hsound, hsectors, htotal, hbytes, hcount, hgeometry⟩ :=
    fat32Geometry_sound (q := 128) (a := 2048) rfl rfl hmin hmax hs₁ hs₂ (by decide) (by decide) rfl
  have henv : fat32Geometry (atLeast512 512) len env.clusterSize env.calloc = sanityChecks g := by
    rw [hdefault, hcalloc]
    exact hgeometry
  rw [← hlower]
  constructor
  · rintro ⟨run, g', hrun, hg', hmin', -⟩
    have haccepted := formatLargeFAT32_accepted hbps hlen hrun hg'
    rw [henv] at haccepted
    rw [sanityChecks_same haccepted, hcount] at hmin'
    exact hmin'
  · intro hclusters
    rw [← hcount] at hclusters hupper
    have hchecks := sanityChecks_of_sound hsound (by omega) hclusters hupper (by omega)
    obtain ⟨run, hrun, hg, -⟩ := writeFAT32_fits env hsound (by omega) (by omega) hclusters
      (by omega)
    refine ⟨run, g, ?_, hg, hclusters, hupper⟩
    rw [formatLargeFAT32_eq hfat hvolume hbps hlen (henv.trans hchecks), hrun]

/-- The partition of 1 GB is not just above a threshold. -/
theorem defaultCluster_works_iff_gigabyte :
    DefaultWorks { gigabyteVolume with clusterSize := 0 } ↔ ¬JustAbove (2 ^ 30 / 512) :=
  defaultCluster_works_iff { gigabyteVolume with clusterSize := 0 } (2 ^ 30) rfl rfl rfl rfl rfl rfl
    (by decide) (by decide)

/-- One of 32 MB is refused, for having too few clusters. -/
theorem defaultCluster_refused :
    formatLargeFAT32 { gigabyteVolume with partitionLength := some (32 * 2 ^ 20), clusterSize := 0 } =
        .ok ⟨none, [], [], some .tooFewClusters⟩ ∧
      ¬DefaultWorks
        { gigabyteVolume with partitionLength := some (32 * 2 ^ 20), clusterSize := 0 } := by
  have hrefused : formatLargeFAT32
      { gigabyteVolume with partitionLength := some (32 * 2 ^ 20), clusterSize := 0 } =
        .ok ⟨none, [], [], some .tooFewClusters⟩ := rfl
  refine ⟨hrefused, ?_⟩
  rintro ⟨run, g, hrun, hg, -⟩
  rw [hrefused] at hrun
  rw [← Except.ok.inj hrun] at hg
  cases hg

end Nawam
