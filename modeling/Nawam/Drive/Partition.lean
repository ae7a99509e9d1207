import Nawam.Base.Align
import Nawam.Base.Bytes
import Nawam.Base.Extent

/-!
# The partition layout

`CreatePartition` of `drive.c`. The ESP and the MSR come first, each followed
by a gap up to the next track; the partitions behind the main one are placed
downwards from the end of the disk; and the main one gets what is left. All
of it is 64-bit arithmetic modulo `2 ^ 64`; the `LONGLONG` operands in it are
not negative.

The meaning is stated over the integers (`exactLast`, `exactMainSize`): where
these come out positive, nothing wraps, and `placeBack_laidOut` and
`placeFront_laidOut` say that the two groups are laid out one behind the
other on either side of the main partition.
-/

namespace Nawam

/-! ## Source -/

/-- `PARTITION_STYLE_*`; a super floppy has no table. -/
inductive PartitionStyle where
  | mbr
  | gpt
  | sfd
deriving DecidableEq, Repr

structure ExtraPartitions where
  msr : Bool
  esp : Bool
  uefiNtfs : Bool
  compat : Bool
  persistence : Bool
deriving DecidableEq, Repr

/-- What a partition is for; the main one can be written as an ESP. -/
inductive PartitionName where
  | esp
  | msr
  | main
  | persistence
  | uefiNtfs
  | compat
deriving DecidableEq, Repr

/-- An entry of `SelectedDrive.Partition`. -/
structure Partition where
  name : PartitionName
  offset : ℕ
  size : ℕ
deriving DecidableEq, Repr

structure PartitionEnv where
  /-- `SelectedDrive` -/
  diskSize : ℕ
  sectorsPerTrack : ℕ
  sectorSize : ℕ
  /-- `MediaType == FixedMedia` -/
  fixedMedia : Bool
  /-- `WindowsVersion.BuildNumber` -/
  buildNumber : ℕ
  /-- the cluster size selected, 0 for none -/
  clusterData : ℕ
  /-- `IsChecked(IDC_OLD_BIOS_FIXES)` -/
  oldBiosFixes : Bool
  /-- the size of `uefi-ntfs.img`, 0 if it is not there -/
  uefiNtfsSize : ℕ
  persistenceSize : ℕ
  writeAsEsp : Bool

abbrev megabyte : ℕ := 1048576
abbrev espSize : ℕ := 260 * megabyte
abbrev msrSize : ℕ := 128 * megabyte
abbrev maxIsoToEspSize : ℕ := 1024 * megabyte
abbrev maxPartitions : ℕ := 16

namespace PartitionEnv

def bytesPerTrack (env : PartitionEnv) : ℕ :=
  env.sectorsPerTrack * env.sectorSize

def clusterSize (env : PartitionEnv) : ℕ :=
  if env.clusterData = 0 then 0x200 else env.clusterData

/-- `ClusterSize % SelectedDrive.SectorSize == 0` -/
def clusterIsSectors (env : PartitionEnv) : Bool :=
  env.clusterSize % env.sectorSize = 0

/-- An ESP comes first where two partitions can be mounted at once. -/
def espInFront (env : PartitionEnv) (extra : ExtraPartitions) : Bool :=
  (env.fixedMedia || 15000 < env.buildNumber) && extra.esp

end PartitionEnv

/-- A `uint64_t`. -/
abbrev wrap (n : ℕ) : ℕ := n % 2 ^ 64

def firstOffset (env : PartitionEnv) (style : PartitionStyle) : C ℕ := do
  if style = .gpt ∨ env.oldBiosFixes = false then return megabyte
  else
    let track ← ceilAlignWord 64 env.bytesPerTrack env.clusterSize
    return wrap (track * 2)

/-- A partition before the main one, and where the next one starts: aligned
to the track and to the cluster. -/
def placeFront (env : PartitionEnv) (name : PartitionName) (size offset : ℕ) :
    C (Partition × ℕ) := do
  let stop := wrap (offset + size)
  let next ← ceilAlignWord 64 stop env.bytesPerTrack
  let next ← if env.clusterIsSectors then floorAlignWord 64 next env.clusterSize
    else pure next
  assertThat (stop ≤ next)
  return (⟨name, offset, size⟩, next)

/-- The partitions before the main one, where that one starts, and the extra
partitions that are left. -/
def createFront (env : PartitionEnv) (style : PartitionStyle)
    (extra : ExtraPartitions) :
    C (List Partition × ℕ × ExtraPartitions) := do
  let offset ← firstOffset env style
  let (esp, offset, extra) ←
    if env.espInFront extra then do
      assertThat (style = .gpt)
      let (esp, next) ← placeFront env .esp espSize offset
      pure ([esp], next, { extra with esp := false })
    else pure ([], offset, extra)
  if extra.msr then
    assertThat (style = .gpt)
    let (msr, next) ← placeFront env .msr msrSize offset
    return (esp ++ [msr], next, { extra with msr := false })
  else return (esp, offset, extra)

def extraSizes (env : PartitionEnv) (extra : ExtraPartitions) :
    C (List (PartitionName × ℕ)) := do
  let casper ←
    if extra.persistence then do
      assertThat (env.persistenceSize ≠ 0)
      let size ← ceilAlignWord 64 env.persistenceSize env.bytesPerTrack
      pure [(PartitionName.persistence, size)]
    else pure []
  if extra.esp then
    let size ← ceilAlignWord 64 espSize env.bytesPerTrack
    return casper ++ [(.esp, size)]
  else if extra.uefiNtfs then
    let size ← ceilAlignWord 64 env.uefiNtfsSize env.bytesPerTrack
    return casper ++ [(.uefiNtfs, size)]
  else if extra.compat then return casper ++ [(.compat, env.bytesPerTrack)]
  else return casper

/-- The loop that places them, the last one first; `last` is `last_offset`. -/
def placeBack (env : PartitionEnv) :
    List (PartitionName × ℕ) → ℕ → C (ℕ × List Partition)
  | [], last => return (last, [])
  | (name, size) :: sizes, last => do
      let (last, placed) ← placeBack env sizes last
      assertThat (size < last)
      let offset ← floorAlignWord 64 (wrapSub 64 last size) env.bytesPerTrack
      return (offset, ⟨name, offset, size⟩ :: placed)

def lastOffset (env : PartitionEnv) (style : PartitionStyle) : ℕ :=
  if style = .gpt then wrapSub 64 env.diskSize (33 * env.sectorSize)
  else env.diskSize

/-- The size of the main partition between `offset` and `last`. -/
def mainPartitionSize (env : PartitionEnv) (offset last : ℕ) : C ℕ := do
  -- main_size is a LONGLONG
  let mainSize := wrapSub 64 last offset
  assertThat (0 < mainSize ∧ mainSize < 2 ^ 63)
  let mainSize := if env.writeAsEsp then min mainSize maxIsoToEspSize
    else mainSize
  let size ← floorAlignWord 64 mainSize env.bytesPerTrack
  if env.clusterIsSectors then floorAlignWord 64 size env.clusterSize
  else return size

/-- The layout `CreatePartition` computes: the partitions in the order of
their entries, `none` where it returns `FALSE`. -/
def partitionLayout (env : PartitionEnv) (style : PartitionStyle)
    (extra : ExtraPartitions) : C (Option (List Partition)) := do
  if style = .sfd then return some []
  else if extra.uefiNtfs ∧ env.uefiNtfsSize = 0 then return none
  else
    let (front, mainOffset, extra) ← createFront env style extra
    let sizes ← extraSizes env extra
    assertThat (front.length + 1 + sizes.length ≤ maxPartitions)
    let (last, back) ← placeBack env sizes (lastOffset env style)
    let size ← mainPartitionSize env mainOffset last
    if size = 0 then return none
    else return some (front ++ ⟨.main, mainOffset, size⟩ :: back)

/-! ## What is meant -/

namespace Partition

def extent (p : Partition) : Extent := (p.offset, p.size)

end Partition

namespace PartitionEnv

/-- Where the partition behind `stop` starts. -/
def nextOffset (env : PartitionEnv) (stop : ℕ) : ℕ :=
  if env.clusterIsSectors then
    floorAlign (ceilAlign stop env.bytesPerTrack) env.clusterSize
  else ceilAlign stop env.bytesPerTrack

/-- `firstOffset` -/
def exactFirst (env : PartitionEnv) (style : PartitionStyle) : ℕ :=
  if style = .gpt ∨ env.oldBiosFixes = false then megabyte
  else ceilAlign env.bytesPerTrack env.clusterSize * 2

def exactEspEnd (env : PartitionEnv) (style : PartitionStyle)
    (extra : ExtraPartitions) : ℕ :=
  if env.espInFront extra then env.nextOffset (env.exactFirst style + espSize)
  else env.exactFirst style

def exactMain (env : PartitionEnv) (style : PartitionStyle)
    (extra : ExtraPartitions) : ℕ :=
  if extra.msr then env.nextOffset (env.exactEspEnd style extra + msrSize)
  else env.exactEspEnd style extra

def exactFront (env : PartitionEnv) (style : PartitionStyle)
    (extra : ExtraPartitions) : List Partition :=
  (if env.espInFront extra then [⟨.esp, env.exactFirst style, espSize⟩]
    else []) ++
  (if extra.msr then [⟨.msr, env.exactEspEnd style extra, msrSize⟩] else [])

def extraBehind (env : PartitionEnv) (extra : ExtraPartitions) :
    ExtraPartitions :=
  { extra with esp := extra.esp && !env.espInFront extra, msr := false }

/-- `extraSizes` -/
def exactSizes (env : PartitionEnv) (extra : ExtraPartitions) :
    List (PartitionName × ℕ) :=
  (if extra.persistence then
    [(.persistence, ceilAlign env.persistenceSize env.bytesPerTrack)] else []) ++
  (if extra.esp then [(.esp, ceilAlign espSize env.bytesPerTrack)]
    else if extra.uefiNtfs then
      [(.uefiNtfs, ceilAlign env.uefiNtfsSize env.bytesPerTrack)]
    else if extra.compat then [(.compat, env.bytesPerTrack)]
    else [])

/-- The offsets the partitions get from `last` downwards, as integers. -/
def exactOffsets (track : ℕ) : List (PartitionName × ℕ) → ℤ → List ℤ
  | [], _ => []
  | (_, size) :: sizes, last =>
      let offsets := exactOffsets track sizes last
      (offsets.headD last - size) / track * track :: offsets

/-- `lastOffset` -/
def exactEnd (env : PartitionEnv) (style : PartitionStyle) : ℤ :=
  if style = .gpt then env.diskSize - 33 * env.sectorSize else env.diskSize

def exactBehind (env : PartitionEnv) (style : PartitionStyle)
    (extra : ExtraPartitions) : List ℤ :=
  exactOffsets env.bytesPerTrack (env.exactSizes (env.extraBehind extra))
    (env.exactEnd style)

def exactMainSize (env : PartitionEnv) (style : PartitionStyle)
    (extra : ExtraPartitions) : ℤ :=
  (env.exactBehind style extra).headD (env.exactEnd style)
    - env.exactMain style extra

end PartitionEnv

/-- A request the layout is meant for: the sizes are in the range of their
types, an ESP or an MSR goes with GPT and with clusters that divide a megabyte,
and the disk has room for what is asked. -/
structure PartitionEnv.Fits (env : PartitionEnv) (style : PartitionStyle)
    (extra : ExtraPartitions) : Prop where
  sectorSize : ∃ k < 32, 9 ≤ k ∧ env.sectorSize = 2 ^ k
  sectorsPerTrack : 1 ≤ env.sectorsPerTrack
  sectorsPerTrack_lt : env.sectorsPerTrack < 2 ^ 32
  clusterSize : ∃ k < 63, env.clusterSize = 2 ^ k
  diskSize_lt : env.diskSize < 2 ^ 63
  gpt : extra.esp ∨ extra.msr → style = .gpt
  cluster_dvd : extra.esp ∨ extra.msr → env.clusterSize ∣ megabyte
  persistence : extra.persistence → env.persistenceSize ≠ 0
  offsets_pos : ∀ offset ∈ env.exactBehind style extra, 0 < offset
  mainSize_pos : 0 < env.exactMainSize style extra

/-! ## The partitions in front -/

section

variable {env : PartitionEnv} {style : PartitionStyle} {extra : ExtraPartitions}

theorem PartitionEnv.le_nextOffset {stop : ℕ} (htrack : 0 < env.bytesPerTrack)
    (hdvd : env.clusterIsSectors → env.clusterSize ∣ stop) :
    stop ≤ env.nextOffset stop := by
  have hceil : stop ≤ ceilAlign stop env.bytesPerTrack := le_ceilAlign stop htrack
  unfold nextOffset
  split
  case isTrue hsectors => exact le_floorAlign (hdvd hsectors) hceil
  case isFalse => exact hceil

theorem PartitionEnv.dvd_nextOffset (stop : ℕ)
    (hsectors : env.clusterIsSectors = true) :
    env.clusterSize ∣ env.nextOffset stop := by
  rw [nextOffset, if_pos hsectors]
  exact dvd_floorAlign _ _

/-- The gap behind a partition in front of the main one opens upwards: the
cluster size divides its end, so rounding down to clusters does not cross it. -/
theorem placeFront_exact {name : PartitionName} {size offset : ℕ}
    (htrack : 0 < env.bytesPerTrack) (hcluster : 0 < env.clusterSize)
    (hfit : offset + size + env.bytesPerTrack ≤ 2 ^ 64)
    (hdvd : env.clusterIsSectors → env.clusterSize ∣ offset + size) :
    placeFront env name size offset
      = .ok (⟨name, offset, size⟩, env.nextOffset (offset + size)) := by
  have hstop : wrap (offset + size) = offset + size :=
    Nat.mod_eq_of_lt (by omega)
  have hceil : ceilAlignWord 64 (offset + size) env.bytesPerTrack
      = .ok (ceilAlign (offset + size) env.bytesPerTrack) :=
    ceilAlignWord_exact htrack hfit
  have hlt : ceilAlign (offset + size) env.bytesPerTrack < 2 ^ 64 :=
    lt_of_lt_of_le (ceilAlign_lt _ htrack) hfit
  have hfloor : floorAlignWord 64 (ceilAlign (offset + size) env.bytesPerTrack)
      env.clusterSize
      = .ok (floorAlign (ceilAlign (offset + size) env.bytesPerTrack)
          env.clusterSize) := floorAlignWord_exact hcluster hlt
  have hle : offset + size ≤ env.nextOffset (offset + size) :=
    PartitionEnv.le_nextOffset htrack hdvd
  unfold PartitionEnv.nextOffset at hle ⊢
  simp only [placeFront, hstop, hceil, hfloor, C.ok_bind, C.pure_eq]
  split
  case isTrue hsectors =>
      rw [if_pos hsectors] at hle
      simp only [hle, decide_true, assertThat_true, C.ok_bind]
  case isFalse hsectors =>
      rw [if_neg hsectors] at hle
      simp only [hle, decide_true, assertThat_true, C.ok_bind]

end

namespace PartitionEnv.Fits

variable {env : PartitionEnv} {style : PartitionStyle} {extra : ExtraPartitions}

theorem cluster_pos (h : env.Fits style extra) : 0 < env.clusterSize := by
  obtain ⟨k, -, hk⟩ := h.clusterSize
  rw [hk]
  exact Nat.two_pow_pos k

theorem track_pos (h : env.Fits style extra) : 0 < env.bytesPerTrack := by
  obtain ⟨k, -, -, hk⟩ := h.sectorSize
  have hsector : 0 < env.sectorSize := hk ▸ Nat.two_pow_pos k
  exact Nat.mul_pos h.sectorsPerTrack hsector

theorem cluster_lt (h : env.Fits style extra) : env.clusterSize < 2 ^ 63 := by
  obtain ⟨k, hlt, hk⟩ := h.clusterSize
  rw [hk]
  exact Nat.pow_lt_pow_right (by decide) hlt

theorem track_lt (h : env.Fits style extra) : env.bytesPerTrack < 2 ^ 63 := by
  obtain ⟨k, hlt, -, hk⟩ := h.sectorSize
  have hsector : env.sectorSize ≤ 2 ^ 31 := by
    rw [hk]
    exact Nat.pow_le_pow_right (by decide) (by omega)
  have htracks : env.sectorsPerTrack < 2 ^ 32 := h.sectorsPerTrack_lt
  calc env.bytesPerTrack = env.sectorsPerTrack * env.sectorSize := rfl
    _ ≤ env.sectorsPerTrack * 2 ^ 31 := Nat.mul_le_mul_left _ hsector
    _ < 2 ^ 32 * 2 ^ 31 := Nat.mul_lt_mul_of_pos_right htracks (by decide)
    _ = 2 ^ 63 := by decide

theorem exactEnd_lt (h : env.Fits style extra) : env.exactEnd style < 2 ^ 63 := by
  have hdisk : env.diskSize < 2 ^ 63 := h.diskSize_lt
  unfold exactEnd
  split <;> omega

/-- The clusters divide the end of a partition that starts at a megabyte. -/
theorem dvd_first (h : env.Fits style extra) (hextra : extra.esp ∨ extra.msr) :
    env.exactFirst style = megabyte := if_pos (.inl (h.gpt hextra))

theorem dvd_espStop (h : env.Fits style extra) (hesp : extra.esp = true) :
    env.clusterSize ∣ env.exactFirst style + espSize := by
  rw [h.dvd_first (.inl hesp)]
  have hdvd : env.clusterSize ∣ megabyte := h.cluster_dvd (.inl hesp)
  exact Nat.dvd_add hdvd (hdvd.mul_left 260)

theorem dvd_espEnd (h : env.Fits style extra) (hmsr : extra.msr = true)
    (hsectors : env.clusterIsSectors = true) :
    env.clusterSize ∣ env.exactEspEnd style extra := by
  unfold exactEspEnd
  split
  case isTrue => exact env.dvd_nextOffset _ hsectors
  case isFalse =>
      rw [h.dvd_first (.inr hmsr)]
      exact h.cluster_dvd (.inr hmsr)

theorem dvd_msrStop (h : env.Fits style extra) (hmsr : extra.msr = true)
    (hsectors : env.clusterIsSectors = true) :
    env.clusterSize ∣ env.exactEspEnd style extra + msrSize := by
  have hdvd : env.clusterSize ∣ megabyte := h.cluster_dvd (.inr hmsr)
  exact Nat.dvd_add (h.dvd_espEnd hmsr hsectors) (hdvd.mul_left 128)

theorem espStop_le (h : env.Fits style extra)
    (hesp : env.espInFront extra = true) :
    env.exactFirst style + espSize ≤ env.exactEspEnd style extra := by
  have hextra : extra.esp = true := (Bool.and_eq_true _ _ ▸ hesp).2
  rw [exactEspEnd, if_pos hesp]
  exact le_nextOffset h.track_pos fun _ => h.dvd_espStop hextra

theorem msrStop_le (h : env.Fits style extra) (hmsr : extra.msr = true) :
    env.exactEspEnd style extra + msrSize ≤ env.exactMain style extra := by
  rw [exactMain, if_pos hmsr]
  exact le_nextOffset h.track_pos (h.dvd_msrStop hmsr)

theorem espEnd_le (h : env.Fits style extra) :
    env.exactEspEnd style extra ≤ env.exactMain style extra := by
  cases hmsr : extra.msr with
  | true => exact le_trans (Nat.le_add_right _ _) (h.msrStop_le hmsr)
  | false => rw [exactMain, hmsr, if_neg Bool.false_ne_true]

/-- The offsets behind the main partition only go down. -/
theorem headD_exactOffsets_le {track : ℕ} (htrack : 0 < track) (last : ℤ) :
    ∀ sizes : List (PartitionName × ℕ),
      (exactOffsets track sizes last).headD last ≤ last
  | [] => le_rfl
  | (_, size) :: sizes => by
      have ih : (exactOffsets track sizes last).headD last ≤ last :=
        headD_exactOffsets_le htrack last sizes
      have hfloor := Int.ediv_mul_le
        ((exactOffsets track sizes last).headD last - size)
        (Int.natCast_ne_zero.mpr htrack.ne')
      simp only [exactOffsets, List.headD_cons]
      omega

theorem main_lt (h : env.Fits style extra) :
    env.exactMain style extra < 2 ^ 63 := by
  have hpos : 0 < env.exactMainSize style extra := h.mainSize_pos
  have hle : (env.exactBehind style extra).headD (env.exactEnd style)
      ≤ env.exactEnd style := headD_exactOffsets_le h.track_pos _ _
  have hend : env.exactEnd style < 2 ^ 63 := h.exactEnd_lt
  unfold exactMainSize at hpos
  omega

end PartitionEnv.Fits

section

variable {env : PartitionEnv} {style : PartitionStyle} {extra : ExtraPartitions}

theorem PartitionEnv.first_le_espEnd (h : env.Fits style extra) :
    env.exactFirst style ≤ env.exactEspEnd style extra := by
  cases hesp : env.espInFront extra with
  | true => exact le_trans (Nat.le_add_right _ _) (h.espStop_le hesp)
  | false => rw [exactEspEnd, hesp, if_neg Bool.false_ne_true]

theorem firstOffset_exact (h : env.Fits style extra) :
    firstOffset env style = .ok (env.exactFirst style) := by
  have hle : env.exactFirst style < 2 ^ 63 :=
    lt_of_le_of_lt (le_trans (env.first_le_espEnd h) h.espEnd_le) h.main_lt
  have hfit : env.bytesPerTrack + env.clusterSize ≤ 2 ^ 64 := by
    have htrack := h.track_lt
    have hcluster := h.cluster_lt
    omega
  unfold firstOffset
  unfold PartitionEnv.exactFirst at hle ⊢
  split
  case isTrue => rfl
  case isFalse hold =>
      rw [if_neg hold] at hle
      have hwrap : wrap (ceilAlign env.bytesPerTrack env.clusterSize * 2)
          = ceilAlign env.bytesPerTrack env.clusterSize * 2 :=
        Nat.mod_eq_of_lt (by omega)
      simp only [ceilAlignWord_exact h.cluster_pos hfit, hwrap,
        C.ok_bind, C.pure_eq]

/-- The front is the one that is meant where each partition in it can be placed. -/
theorem createFront_of_places (hfirst : firstOffset env style = .ok (env.exactFirst style))
    (hgpt : env.espInFront extra ∨ extra.msr → style = .gpt)
    (hesp : env.espInFront extra = true →
      placeFront env .esp espSize (env.exactFirst style)
        = .ok (⟨.esp, env.exactFirst style, espSize⟩, env.exactEspEnd style extra))
    (hmsr : extra.msr = true →
      placeFront env .msr msrSize (env.exactEspEnd style extra)
        = .ok (⟨.msr, env.exactEspEnd style extra, msrSize⟩, env.exactMain style extra)) :
    createFront env style extra
      = .ok (env.exactFront style extra, env.exactMain style extra,
          env.extraBehind extra) := by
  simp only [createFront, hfirst, C.ok_bind]
  cases hin : env.espInFront extra with
  | true =>
      simp only [decide_eq_true (hgpt (.inl hin)), hesp hin, if_true, assertThat_true,
        C.ok_bind, C.pure_eq]
      cases hm : extra.msr with
      | true =>
          simp [hmsr hm, PartitionEnv.exactFront, PartitionEnv.extraBehind, hin,
            hm]
      | false =>
          simp [PartitionEnv.exactFront, PartitionEnv.extraBehind,
            PartitionEnv.exactMain, hin, hm]
  | false =>
      have hend : env.exactEspEnd style extra = env.exactFirst style := by
        rw [PartitionEnv.exactEspEnd, hin, if_neg Bool.false_ne_true]
      cases hm : extra.msr with
      | true =>
          rw [hend] at hmsr
          simp [decide_eq_true (hgpt (.inr hm)), hmsr hm, PartitionEnv.exactFront,
            PartitionEnv.extraBehind, hin, hm, hend]
      | false =>
          obtain ⟨msr, esp, uefiNtfs, compat, persistence⟩ := extra
          cases hm
          simp [PartitionEnv.exactFront, PartitionEnv.extraBehind,
            PartitionEnv.exactMain, hin, hend]

theorem createFront_exact (h : env.Fits style extra) :
    createFront env style extra
      = .ok (env.exactFront style extra, env.exactMain style extra,
          env.extraBehind extra) := by
  have htrack : env.bytesPerTrack < 2 ^ 63 := h.track_lt
  have hmain : env.exactMain style extra < 2 ^ 63 := h.main_lt
  have hle : env.exactEspEnd style extra ≤ env.exactMain style extra :=
    h.espEnd_le
  have hextra (hin : env.espInFront extra = true) : extra.esp = true :=
    (Bool.and_eq_true _ _ ▸ hin).2
  apply createFront_of_places (firstOffset_exact h)
  · exact fun hin => h.gpt (hin.imp_left hextra)
  · intro hin
    have hstop := h.espStop_le hin
    rw [placeFront_exact h.track_pos h.cluster_pos (by omega)
      fun _ => h.dvd_espStop (hextra hin), PartitionEnv.exactEspEnd, if_pos hin]
  · intro hin
    have hstop := h.msrStop_le hin
    rw [placeFront_exact h.track_pos h.cluster_pos (by omega)
      (h.dvd_msrStop hin), PartitionEnv.exactMain, if_pos hin]

theorem exactFront_laidOut (h : env.Fits style extra) :
    Extent.LaidOut (env.exactFirst style)
      ((env.exactFront style extra).map Partition.extent)
      (env.exactMain style extra) := by
  have hesp : Extent.LaidOut (env.exactFirst style)
      ((if env.espInFront extra then
        [(⟨.esp, env.exactFirst style, espSize⟩ : Partition)] else []).map
        Partition.extent) (env.exactEspEnd style extra) := by
    split
    case isTrue hin => exact ⟨le_rfl, h.espStop_le hin⟩
    case isFalse => exact env.first_le_espEnd h
  have hmsr : Extent.LaidOut (env.exactEspEnd style extra)
      ((if extra.msr then
        [(⟨.msr, env.exactEspEnd style extra, msrSize⟩ : Partition)] else []).map
        Partition.extent) (env.exactMain style extra) := by
    split
    case isTrue hin => exact ⟨le_rfl, h.msrStop_le hin⟩
    case isFalse => exact h.espEnd_le
  rw [PartitionEnv.exactFront, List.map_append]
  exact hesp.append hmsr

theorem exactFront_size_pos : ∀ p ∈ env.exactFront style extra, 0 < p.size := by
  intro p hp
  simp only [PartitionEnv.exactFront, List.mem_append] at hp
  rcases hp with hp | hp
  all_goals
    split at hp
    · simp only [List.mem_singleton] at hp
      simp [hp, espSize, msrSize]
    · simp at hp

end

/-! ## The partitions behind -/

/-- One step down: with an exact offset above 0 the partition fits below
`last`, and it is placed there. -/
theorem floorAlign_sub_exact {track size last : ℕ}
    (hpos : 0 < ((last : ℤ) - size) / track * track) (htrack : 0 < track) :
    size < last ∧ ((last : ℤ) - size) / track * track
      = (floorAlign (last - size) track : ℕ) := by
  have hle : ((last : ℤ) - size) / track * track ≤ last - size :=
    Int.ediv_mul_le _ (Int.natCast_ne_zero.mpr htrack.ne')
  have hlt : size < last := by omega
  refine ⟨hlt, ?_⟩
  rw [floorAlign, Int.natCast_mul, Int.natCast_ediv, Int.natCast_sub hlt.le]

/-- The loop places the partitions below `last`, one below the other, at the
offsets that are meant. -/
theorem placeBack_exact {env : PartitionEnv} {last : ℕ}
    (htrack : 0 < env.bytesPerTrack) (hlast : last < 2 ^ 64) :
    ∀ sizes : List (PartitionName × ℕ),
      (∀ offset ∈ PartitionEnv.exactOffsets env.bytesPerTrack sizes last,
        0 < offset) →
      ∃ (offset : ℕ) (placed : List Partition),
        placeBack env sizes last = .ok (offset, placed) ∧
        (PartitionEnv.exactOffsets env.bytesPerTrack sizes last).headD last
          = offset ∧
        Extent.LaidOut offset (placed.map Partition.extent) last ∧
        placed.map Partition.size = sizes.map Prod.snd
  | [], _ => ⟨last, [], rfl, rfl, le_refl last, rfl⟩
  | (name, size) :: sizes, hpos => by
      obtain ⟨last', placed, hrun, hhead, hlaid, hsizes⟩ :=
        placeBack_exact htrack hlast sizes fun offset hmem =>
          hpos offset (List.mem_cons_of_mem _ hmem)
      have hoffset : 0 < ((last' : ℤ) - size) / env.bytesPerTrack
          * env.bytesPerTrack := hhead ▸ hpos _ List.mem_cons_self
      obtain ⟨hlt, hexact⟩ := floorAlign_sub_exact hoffset htrack
      have hle : last' ≤ last := hlaid.le
      have hfloor : floorAlign (last' - size) env.bytesPerTrack ≤ last' - size :=
        floorAlign_le _ _
      refine ⟨floorAlign (last' - size) env.bytesPerTrack,
        ⟨name, floorAlign (last' - size) env.bytesPerTrack, size⟩ :: placed,
        ?_, ?_, ?_, ?_⟩
      · simp only [placeBack, hrun, hlt, decide_true, assertThat_true,
          wrapSub_of_le hlt.le (by omega : last' - size < 2 ^ 64), C.ok_bind, C.pure_eq,
          floorAlignWord_exact htrack (by omega : last' - size < 2 ^ 64)]
      · simp only [PartitionEnv.exactOffsets, List.headD_cons, hhead, hexact]
      · rw [List.map_cons]
        refine ⟨le_rfl, ?_⟩
        have hstop : Extent.stop (floorAlign (last' - size) env.bytesPerTrack, size)
            ≤ last' := by
          simp only [Extent.stop]
          omega
        exact hlaid.weaken hstop
      · rw [List.map_cons, List.map_cons, hsizes]

section

variable {env : PartitionEnv} {style : PartitionStyle} {extra : ExtraPartitions}

theorem lastOffset_exact (h : env.Fits style extra)
    (hpos : 0 < env.exactEnd style) :
    env.exactEnd style = lastOffset env style := by
  have hdisk : env.diskSize < 2 ^ 63 := h.diskSize_lt
  unfold PartitionEnv.exactEnd at hpos ⊢
  unfold lastOffset
  split
  case isTrue hgpt =>
      rw [if_pos hgpt] at hpos
      have hle : 33 * env.sectorSize ≤ env.diskSize := by omega
      rw [wrapSub_of_le hle (by omega), Int.natCast_sub hle]
      rfl
  case isFalse => rfl

theorem PartitionEnv.Fits.exactEnd_pos (h : env.Fits style extra) :
    0 < env.exactEnd style := by
  have hpos : 0 < env.exactMainSize style extra := h.mainSize_pos
  have hle : (env.exactBehind style extra).headD (env.exactEnd style)
      ≤ env.exactEnd style := headD_exactOffsets_le h.track_pos _ _
  unfold exactMainSize at hpos
  omega

/-- The sizes of the partitions behind the main one, whatever the persistent one is
rounded to -/
theorem extraSizes_of_casper (htrack : 0 < env.bytesPerTrack)
    (hpersistence : extra.persistence → env.persistenceSize ≠ 0) {casper : ℕ}
    (hcasper : extra.persistence →
      ceilAlignWord 64 env.persistenceSize env.bytesPerTrack = .ok casper)
    (hesp : espSize + env.bytesPerTrack ≤ 2 ^ 64)
    (hntfs : extra.esp = false → extra.uefiNtfs →
      env.uefiNtfsSize + env.bytesPerTrack ≤ 2 ^ 64) :
    extraSizes env extra = .ok
      ((if extra.persistence then [(.persistence, casper)] else []) ++
      (if extra.esp then [(.esp, ceilAlign espSize env.bytesPerTrack)]
        else if extra.uefiNtfs then
          [(.uefiNtfs, ceilAlign env.uefiNtfsSize env.bytesPerTrack)]
        else if extra.compat then [(.compat, env.bytesPerTrack)]
        else [])) := by
  replace hesp : ceilAlignWord 64 espSize env.bytesPerTrack
      = .ok (ceilAlign espSize env.bytesPerTrack) := ceilAlignWord_exact htrack hesp
  replace hntfs (he : extra.esp = false) (hu : extra.uefiNtfs = true) :
      ceilAlignWord 64 env.uefiNtfsSize env.bytesPerTrack
        = .ok (ceilAlign env.uefiNtfsSize env.bytesPerTrack) :=
    ceilAlignWord_exact htrack (hntfs he hu)
  have hbehind (casper : List (PartitionName × ℕ)) :
      (if extra.esp then do
          let size ← ceilAlignWord 64 espSize env.bytesPerTrack
          return casper ++ [(PartitionName.esp, size)]
        else if extra.uefiNtfs then do
          let size ← ceilAlignWord 64 env.uefiNtfsSize env.bytesPerTrack
          return casper ++ [(PartitionName.uefiNtfs, size)]
        else if extra.compat then
          return casper ++ [(PartitionName.compat, env.bytesPerTrack)]
        else return casper : C (List (PartitionName × ℕ)))
        = .ok (casper ++ if extra.esp then
            [(PartitionName.esp, ceilAlign espSize env.bytesPerTrack)]
          else if extra.uefiNtfs then
            [(PartitionName.uefiNtfs,
              ceilAlign env.uefiNtfsSize env.bytesPerTrack)]
          else if extra.compat then [(PartitionName.compat, env.bytesPerTrack)]
          else []) := by
    cases he : extra.esp with
    | true => simp [hesp]
    | false =>
        cases hu : extra.uefiNtfs with
        | true => simp [hntfs he hu]
        | false => cases extra.compat <;> simp
  unfold extraSizes
  cases hp : extra.persistence with
  | true =>
      simp only [hpersistence hp, hcasper hp, if_true, ne_eq, not_false_eq_true,
        decide_true, assertThat_true, C.ok_bind, C.pure_eq]
      exact hbehind _
  | false => exact hbehind []

theorem extraSizes_exact (htrack : 0 < env.bytesPerTrack)
    (hpersistence : extra.persistence → env.persistenceSize ≠ 0)
    (hcasper : extra.persistence →
      env.persistenceSize + env.bytesPerTrack ≤ 2 ^ 64)
    (hesp : espSize + env.bytesPerTrack ≤ 2 ^ 64)
    (hntfs : extra.esp = false → extra.uefiNtfs →
      env.uefiNtfsSize + env.bytesPerTrack ≤ 2 ^ 64) :
    extraSizes env extra = .ok (env.exactSizes extra) :=
  extraSizes_of_casper htrack hpersistence
    (fun hp => ceilAlignWord_exact htrack (hcasper hp)) hesp hntfs

/-- What is left is rounded down, twice at most. -/
theorem mainPartitionSize_le {offset last : ℕ} (htrack : 0 < env.bytesPerTrack)
    (hcluster : 0 < env.clusterSize) (hlt : offset < last)
    (hlast : last < 2 ^ 63) :
    ∃ size, mainPartitionSize env offset last = .ok size ∧
      size ≤ last - offset := by
  have hwrap : wrapSub 64 last offset = last - offset :=
    wrapSub_of_le hlt.le (by omega)
  have hpos : 0 < last - offset ∧ last - offset < 2 ^ 63 := by omega
  obtain ⟨main, hmain⟩ : ∃ main, (if env.writeAsEsp then
      min (last - offset) maxIsoToEspSize else last - offset) = main := ⟨_, rfl⟩
  have hle : main ≤ last - offset := by
    rw [← hmain]
    split
    case isTrue => exact Nat.min_le_left _ _
    case isFalse => exact le_rfl
  have hfloor : floorAlign main env.bytesPerTrack ≤ main := floorAlign_le _ _
  simp only [mainPartitionSize, hwrap, hpos, and_self, decide_true,
    assertThat_true, C.ok_bind, C.pure_eq, hmain,
    floorAlignWord_exact htrack (by omega : main < 2 ^ 64)]
  split
  case isTrue =>
      rw [floorAlignWord_exact hcluster (by omega)]
      exact ⟨_, rfl, le_trans (floorAlign_le _ _) (le_trans hfloor hle)⟩
  case isFalse => exact ⟨_, rfl, le_trans hfloor hle⟩

theorem exactSizes_pos (htrack : 0 < env.bytesPerTrack)
    (hpersistence : extra.persistence → env.persistenceSize ≠ 0)
    (huefi : extra.uefiNtfs → env.uefiNtfsSize ≠ 0) :
    ∀ p ∈ env.exactSizes extra, 0 < p.2 := by
  intro p hp
  rcases List.mem_append.mp hp with hp | hp
  · split at hp
    case isTrue hin =>
        rw [List.mem_singleton.mp hp]
        exact ceilAlign_pos htrack (Nat.pos_of_ne_zero (hpersistence hin))
    case isFalse => cases hp
  · split at hp
    case isTrue =>
        rw [List.mem_singleton.mp hp]
        exact ceilAlign_pos htrack (by decide)
    case isFalse =>
        split at hp
        case isTrue hin =>
            rw [List.mem_singleton.mp hp]
            exact ceilAlign_pos htrack (Nat.pos_of_ne_zero (huefi hin))
        case isFalse =>
            split at hp
            case isTrue =>
                rw [List.mem_singleton.mp hp]
                exact htrack
            case isFalse => cases hp

theorem exactSizes_length : (env.exactSizes extra).length ≤ 2 := by
  unfold PartitionEnv.exactSizes
  rw [List.length_append]
  split <;> split <;> (try split) <;> (try split) <;> simp

theorem exactFront_length : (env.exactFront style extra).length ≤ 2 := by
  unfold PartitionEnv.exactFront
  rw [List.length_append]
  split <;> split <;> simp

end

theorem size_le_of_laidOut {start stop : ℕ} {parts : List Partition}
    {sizes : List (PartitionName × ℕ)}
    (hlaid : Extent.LaidOut start (parts.map Partition.extent) stop)
    (hsizes : parts.map Partition.size = sizes.map Prod.snd) :
    ∀ p ∈ sizes, p.2 ≤ stop := by
  intro p hp
  have hmem : p.2 ∈ parts.map Partition.size :=
    hsizes ▸ List.mem_map_of_mem hp
  obtain ⟨q, hq, hsize⟩ := List.mem_map.mp hmem
  have hstop : q.offset + q.size ≤ stop :=
    (hlaid.bounds q.extent (List.mem_map_of_mem hq)).2
  omega

section

variable {env : PartitionEnv} {style : PartitionStyle} {extra : ExtraPartitions}

/-- Sizes that are laid out below the last offset are rounded up without a wrap. -/
theorem extraSizes_of_laidOut (h : env.Fits style extra) {start stop : ℕ}
    {parts : List Partition}
    (hlaid : Extent.LaidOut start (parts.map Partition.extent) stop)
    (hsizes : parts.map Partition.size
      = (env.exactSizes (env.extraBehind extra)).map Prod.snd)
    (hstop : stop < 2 ^ 63) :
    extraSizes env (env.extraBehind extra)
      = .ok (env.exactSizes (env.extraBehind extra)) := by
  have htrack := h.track_lt
  have hword {name : PartitionName} {x : ℕ}
      (hmem : (name, ceilAlign x env.bytesPerTrack)
        ∈ env.exactSizes (env.extraBehind extra)) :
      x + env.bytesPerTrack ≤ 2 ^ 64 := by
    have hsize := size_le_of_laidOut hlaid hsizes _ hmem
    have hle : x ≤ ceilAlign x env.bytesPerTrack := le_ceilAlign x h.track_pos
    dsimp only at hsize
    omega
  refine extraSizes_exact h.track_pos h.persistence (fun hp => ?_)
    (by simp only [espSize, megabyte]; omega) fun he hu => ?_
  · exact @hword .persistence _ (by simp [PartitionEnv.exactSizes, hp])
  · exact @hword .uefiNtfs _ (by simp [PartitionEnv.exactSizes, he, hu])

/-- The partitions in front, the main one and those behind are laid out one
behind the other. -/
theorem partitionLayout_laidOut (h : env.Fits style extra) :
    ∃ layout, partitionLayout env style extra = .ok layout ∧
      ∀ parts, layout = some parts →
        (∃ start, Extent.LaidOut start (parts.map Partition.extent)
          (lastOffset env style)) ∧
        ∀ p ∈ parts, 0 < p.size := by
  by_cases hsfd : style = .sfd
  · refine ⟨some [], if_pos hsfd, ?_⟩
    rintro parts ⟨⟩
    exact ⟨⟨0, Nat.zero_le _⟩, fun p hp => nomatch hp⟩
  by_cases hntfs : extra.uefiNtfs ∧ env.uefiNtfsSize = 0
  · refine ⟨none, ?_, fun parts hparts => nomatch hparts⟩
    rw [partitionLayout, if_neg hsfd, if_pos hntfs]
    rfl
  have huefi : (env.extraBehind extra).uefiNtfs → env.uefiNtfsSize ≠ 0 :=
    fun hin hzero => hntfs ⟨hin, hzero⟩
  have hend : env.exactEnd style = lastOffset env style :=
    lastOffset_exact h h.exactEnd_pos
  have hlt : lastOffset env style < 2 ^ 63 := by
    have hexact : env.exactEnd style < 2 ^ 63 := h.exactEnd_lt
    omega
  have hoffsets : ∀ offset ∈ PartitionEnv.exactOffsets env.bytesPerTrack
      (env.exactSizes (env.extraBehind extra)) (lastOffset env style),
      0 < offset := by
    rw [← hend]
    exact h.offsets_pos
  obtain ⟨last, back, hrun, hhead, hlaid, hback⟩ :=
    placeBack_exact h.track_pos (by omega) (env.exactSizes (env.extraBehind extra))
      hoffsets
  have hmain : env.exactMain style extra < last := by
    have hpos : 0 < env.exactMainSize style extra := h.mainSize_pos
    rw [PartitionEnv.exactMainSize, PartitionEnv.exactBehind, hend, hhead] at hpos
    omega
  have hlast : last ≤ lastOffset env style := hlaid.le
  have hsizes : extraSizes env (env.extraBehind extra)
      = .ok (env.exactSizes (env.extraBehind extra)) :=
    extraSizes_of_laidOut h hlaid hback (by omega)
  obtain ⟨size, hsize, hle⟩ := @mainPartitionSize_le env _ _ h.track_pos
    h.cluster_pos hmain (by omega)
  have hpos : ∀ p ∈ env.exactSizes (env.extraBehind extra), 0 < p.2 :=
    exactSizes_pos h.track_pos h.persistence huefi
  have hcount : (env.exactFront style extra).length + 1
      + (env.exactSizes (env.extraBehind extra)).length ≤ maxPartitions := by
    have hfront : (env.exactFront style extra).length ≤ 2 := exactFront_length
    have hbehind : (env.exactSizes (env.extraBehind extra)).length ≤ 2 :=
      exactSizes_length
    have hmax : maxPartitions = 16 := rfl
    omega
  refine ⟨if size = 0 then none else some (env.exactFront style extra
    ++ ⟨.main, env.exactMain style extra, size⟩ :: back), ?_, ?_⟩
  · rw [partitionLayout, if_neg hsfd, if_neg hntfs]
    simp only [createFront_exact h, hsizes, hcount, decide_true,
      assertThat_true, C.ok_bind]
    rw [hrun, C.ok_bind, hsize, C.ok_bind]
    split <;> rfl
  · intro parts hparts
    split at hparts
    case isTrue => cases hparts
    case isFalse hzero =>
        cases hparts
        constructor
        · refine ⟨env.exactFirst style, ?_⟩
          rw [List.map_append, List.map_cons]
          apply (exactFront_laidOut h).append
          refine ⟨le_rfl, hlaid.weaken ?_⟩
          simp only [Partition.extent, Extent.stop]
          omega
        · intro p hp
          rcases List.mem_append.mp hp with hp | hp
          · exact exactFront_size_pos p hp
          · rcases List.mem_cons.mp hp with rfl | hp
            · exact Nat.pos_of_ne_zero hzero
            · obtain ⟨q, hq, hpq⟩ :=
                List.mem_map.mp (hback ▸ List.mem_map_of_mem (f := Partition.size) hp)
              rw [← hpq]
              exact hpos q hq

/-- **The layout is sound.** Where the disk has room for what is asked, no
assertion on an offset or a size fails; and unless it returns `FALSE` the
partitions are not empty, start in increasing order, do not overlap, and end
within the disk, with GPT before the 33 sectors of the backup table. -/
theorem partitionLayout_sound (h : env.Fits style extra) :
    ∃ layout, partitionLayout env style extra = .ok layout ∧
      ∀ parts, layout = some parts →
        (∀ p ∈ parts, 0 < p.size) ∧
        parts.Pairwise (fun p q => p.offset < q.offset) ∧
        parts.Pairwise (fun p q => p.offset + p.size ≤ q.offset) ∧
        ∀ p ∈ parts, p.offset + p.size
          + (if style = .gpt then 33 * env.sectorSize else 0) ≤ env.diskSize := by
  obtain ⟨layout, hrun, hlayout⟩ := partitionLayout_laidOut h
  refine ⟨layout, hrun, fun parts hparts => ?_⟩
  obtain ⟨⟨start, hlaid⟩, hpos⟩ := hlayout parts hparts
  have hdisjoint : parts.Pairwise fun p q => p.offset + p.size ≤ q.offset :=
    List.pairwise_map.mp hlaid.pairwise
  refine ⟨hpos, ?_, hdisjoint, ?_⟩
  · apply List.Pairwise.imp_of_mem _ hdisjoint
    intro p q hp _ hle
    have hsize : 0 < p.size := hpos p hp
    omega
  · intro p hp
    have hstop : p.offset + p.size ≤ lastOffset env style :=
      (hlaid.bounds p.extent (List.mem_map_of_mem hp)).2
    have hend : env.exactEnd style = lastOffset env style :=
      lastOffset_exact h h.exactEnd_pos
    unfold PartitionEnv.exactEnd at hend
    split
    case isTrue hgpt =>
        rw [if_pos hgpt] at hend
        omega
    case isFalse hgpt =>
        rw [if_neg hgpt] at hend
        omega

end

/-- A 32 GB stick with 4 KB clusters, and a 4 GB persistent partition. -/
def stick : PartitionEnv where
  diskSize := 32010928128
  sectorsPerTrack := 63
  sectorSize := 512
  fixedMedia := false
  buildNumber := 19045
  clusterData := 4096
  oldBiosFixes := false
  uefiNtfsSize := 1048576
  persistenceSize := 4294967296
  writeAsEsp := false

theorem partitionLayout_sound_stick :
    ∃ layout, partitionLayout stick .gpt ⟨true, true, true, false, true⟩
        = .ok layout ∧
      ∀ parts, layout = some parts →
        (∀ p ∈ parts, 0 < p.size) ∧
        parts.Pairwise (fun p q => p.offset < q.offset) ∧
        parts.Pairwise (fun p q => p.offset + p.size ≤ q.offset) ∧
        ∀ p ∈ parts, p.offset + p.size
          + (if PartitionStyle.gpt = .gpt then 33 * stick.sectorSize else 0)
          ≤ stick.diskSize :=
  partitionLayout_sound
    { sectorSize := ⟨9, by decide, by decide, rfl⟩
      sectorsPerTrack := by decide
      sectorsPerTrack_lt := by decide
      clusterSize := ⟨12, by decide, rfl⟩
      diskSize_lt := by decide
      gpt := fun _ => rfl
      cluster_dvd := fun _ => by decide
      persistence := fun _ => by decide
      offsets_pos := by decide
      mainSize_pos := by decide }

/-- The ESP and the MSR are in front, the persistent partition and UEFI:NTFS
behind. -/
example : (partitionLayout stick .gpt ⟨true, true, true, false, true⟩).map
    (Option.map (List.map Partition.name))
    = .ok (some [.esp, .msr, .main, .persistence, .uefiNtfs]) := by
  decide

end Nawam
