import Nawam.Base.Ensures
import Nawam.Drive.Partition

/-!
# Partitions that do not fit

`CreatePartition` of `drive.c` with what it does to the drive behind the
layout. A shortage shows in the layout, before anything is done, as long as
nothing wraps (`createPartition_untouched`). But the function returns `FALSE`
only where it is the rounding of the main partition that leaves nothing of it
(`createPartition_refuses_iff`): a larger shortage stops the program in an
assertion on the sizes and the offsets, and a persistent partition whose
rounding wraps has the size 0, so that the drive is written to.
-/

namespace Nawam

/-! ## Source -/

inductive DriveOp where
  | clear (offset size : ℕ)
  | uefiNtfs (offset : ℕ)
  | createDisk
  | setLayout (parts : List Partition)
  | refresh
deriving DecidableEq, Repr

/-- What the drive and the resources answer, and whether the file system has a
partition type. -/
structure DriveReplies where
  supported : Bool
  setPosition : Bool
  getResource : Bool
  writeNtfs : Bool
  createDisk : Bool
  setLayout : Bool
  refresh : Bool

abbrev maxSectorsToClear : ℕ := 8 * megabyte / 512

/-- `SelectedDrive.Partition[partition_index[PI_UEFI_NTFS]].Offset`; an index
that was not set is 0. -/
def uefiNtfsOffset (parts : List Partition) : ℕ :=
  match parts.find? (·.name = .uefiNtfs) with
  | some p => p.offset
  | none => (parts.headD ⟨.main, 0, 0⟩).offset

def uptoMain : List Partition → List Partition
  | [] => []
  | p :: parts => if p.name = .main then [p] else p :: uptoMain parts

/-- `ClearPartition`; a failure is only logged. -/
def clearPartition (env : PartitionEnv) (p : Partition) : DriveOp :=
  .clear p.offset (min (maxSectorsToClear * env.sectorSize) p.size)

/-- `CreatePartition` from the table on -/
def writeLayout (env : PartitionEnv) (style : PartitionStyle)
    (extra : ExtraPartitions) (replies : DriveReplies)
    (parts : List Partition) : List DriveOp × Bool :=
  if style = .mbr ∧ replies.supported = false then
    ((uptoMain parts).map (clearPartition env), false)
  else
    let ops := parts.map (clearPartition env)
    if extra.uefiNtfs ∧ (replies.setPosition && replies.getResource) = false then
      (ops, false)
    else
      let ops := if extra.uefiNtfs then ops ++ [.uefiNtfs (uefiNtfsOffset parts)]
        else ops
      if extra.uefiNtfs ∧ replies.writeNtfs = false then (ops, false)
      else if replies.createDisk = false then (ops ++ [.createDisk], false)
      else
        let ops := ops ++ [.createDisk, .refresh, .setLayout parts]
        if replies.setLayout = false then (ops, false)
        else (ops ++ [.refresh], replies.refresh)

/-- `CreatePartition`: what was done to the drive, and what is returned. -/
def createPartition (env : PartitionEnv) (style : PartitionStyle)
    (extra : ExtraPartitions) (replies : DriveReplies) : List DriveOp × C Bool :=
  match partitionLayout env style extra with
  | .error fault => ([], .error fault)
  | .ok none => ([], .ok false)
  | .ok (some parts) =>
      if style = .sfd then ([], .ok true)
      else
        let (ops, ok) := writeLayout env style extra replies parts
        (ops, .ok ok)

/-! ## Room -/

namespace PartitionEnv

def roundedMain (env : PartitionEnv) (size : ℤ) : ℤ :=
  let size := if env.writeAsEsp then min size maxIsoToEspSize else size
  let size := size / env.bytesPerTrack * env.bytesPerTrack
  if env.clusterIsSectors then size / env.clusterSize * env.clusterSize else size

/-- The extra partitions are on the disk, and leave room for a main partition
of positive size. -/
structure HasRoom (env : PartitionEnv) (style : PartitionStyle)
    (extra : ExtraPartitions) : Prop where
  offsets_pos : ∀ offset ∈ env.exactBehind style extra, 0 < offset
  mainSize_pos : 0 < env.exactMainSize style extra
  rounded_pos : 0 < env.roundedMain (env.exactMainSize style extra)

/-- Sizes in the range of their types, and a track and a cluster for which no
`LONGLONG` overflows in front of the main partition. -/
structure InRange (env : PartitionEnv) : Prop where
  front_le : 2 * (env.bytesPerTrack + env.clusterSize) + 2 ^ 30 ≤ 2 ^ 63
  sectorSize_lt : env.sectorSize < 2 ^ 32
  diskSize_lt : env.diskSize < 2 ^ 63
  uefiNtfsSize_lt : env.uefiNtfsSize < 2 ^ 32
  persistenceSize_lt : env.persistenceSize < 2 ^ 64

/-- The request as 64 bits see it: a persistent size that cannot be rounded up
in them comes out as nothing. -/
def inWords (env : PartitionEnv) : PartitionEnv :=
  { env with
    persistenceSize :=
      if env.persistenceSize + env.bytesPerTrack ≤ 2 ^ 64 then env.persistenceSize else 0 }

/-- `exactEnd` in 64 bits: a GPT disk of less than 33 sectors ends near
`2 ^ 64`. -/
def wordEnd (env : PartitionEnv) (style : PartitionStyle) : ℤ := env.exactEnd style % 2 ^ 64

/-- What is left for the main partition, where the sizes and the end are those
of 64 bits. -/
def wordMainSize (env : PartitionEnv) (style : PartitionStyle)
    (extra : ExtraPartitions) : ℤ :=
  (exactOffsets env.bytesPerTrack (env.inWords.exactSizes (env.extraBehind extra))
    (env.wordEnd style)).headD (env.wordEnd style) - env.exactMain style extra

structure AssertionsHold (env : PartitionEnv) (style : PartitionStyle)
    (extra : ExtraPartitions) : Prop where
  gpt : env.espInFront extra ∨ extra.msr → style = .gpt
  espStop_le : env.espInFront extra →
    env.exactFirst style + espSize ≤ env.exactEspEnd style extra
  msrStop_le : extra.msr →
    env.exactEspEnd style extra + msrSize ≤ env.exactMain style extra
  persistence : extra.persistence → env.persistenceSize ≠ 0
  mainSize_pos : 0 < env.wordMainSize style extra
  mainSize_lt : env.wordMainSize style extra < 2 ^ 63

/-- A request that is only refused for the rounding: the assertions hold, and
the main partition is rounded to nothing. -/
structure RoundedAway (env : PartitionEnv) (style : PartitionStyle)
    (extra : ExtraPartitions) : Prop where
  track_pos : 0 < env.bytesPerTrack
  assertions : env.AssertionsHold style extra
  rounded : env.roundedMain (env.wordMainSize style extra) = 0

end PartitionEnv

section

variable {env : PartitionEnv} {style : PartitionStyle} {extra : ExtraPartitions}

theorem PartitionEnv.cluster_pos (env : PartitionEnv) : 0 < env.clusterSize := by
  unfold clusterSize
  split <;> omega

theorem PartitionEnv.nextOffset_le (htrack : 0 < env.bytesPerTrack) (stop : ℕ) :
    env.nextOffset stop ≤ stop + env.bytesPerTrack := by
  have hceil : ceilAlign stop env.bytesPerTrack < stop + env.bytesPerTrack :=
    ceilAlign_lt stop htrack
  have hfloor : floorAlign (ceilAlign stop env.bytesPerTrack) env.clusterSize
      ≤ ceilAlign stop env.bytesPerTrack := floorAlign_le _ _
  unfold nextOffset
  split <;> omega

namespace PartitionEnv.InRange

theorem first_le (h : env.InRange) : env.exactFirst style ≤ 2 ^ 63 - 2 ^ 29 := by
  have hfront := h.front_le
  have hceil : ceilAlign env.bytesPerTrack env.clusterSize
      < env.bytesPerTrack + env.clusterSize := ceilAlign_lt _ env.cluster_pos
  unfold exactFirst
  split
  · decide
  · omega

/-- With GPT the first partition starts at a megabyte. -/
theorem espEnd_le (htrack : 0 < env.bytesPerTrack) :
    env.exactEspEnd .gpt extra ≤ 261 * megabyte + env.bytesPerTrack := by
  have hfirst : env.exactFirst .gpt = megabyte := if_pos (.inl rfl)
  have hnext := nextOffset_le htrack (megabyte + espSize)
  have hsizes : megabyte + espSize = 261 * megabyte := rfl
  unfold exactEspEnd
  rw [hfirst]
  split
  · omega
  · omega

theorem main_le (h : env.InRange) (htrack : 0 < env.bytesPerTrack)
    (hgpt : extra.msr ∨ env.espInFront extra → style = .gpt) :
    env.exactMain style extra < 2 ^ 63 := by
  have hfront := h.front_le
  have hfirst : env.exactFirst style ≤ 2 ^ 63 - 2 ^ 29 := h.first_le
  have hsizes : 261 * megabyte + msrSize ≤ 2 ^ 29 := by decide
  have hnext := nextOffset_le htrack (env.exactEspEnd style extra + msrSize)
  unfold exactMain
  split
  case isTrue hmsr =>
      obtain rfl := hgpt (.inl hmsr)
      have hend : env.exactEspEnd .gpt extra ≤ 261 * megabyte + env.bytesPerTrack :=
        espEnd_le htrack
      omega
  case isFalse =>
      by_cases hesp : env.espInFront extra = true
      · obtain rfl := hgpt (.inr hesp)
        have hend : env.exactEspEnd .gpt extra ≤ 261 * megabyte + env.bytesPerTrack :=
          espEnd_le htrack
        omega
      · rw [exactEspEnd, if_neg hesp]
        omega

end PartitionEnv.InRange

/-! ## The layout, up to its assertions -/

theorem assertThat_decide_bind {α : Type} (p : Prop) [Decidable p] (x : C α) :
    (assertThat (decide p) >>= fun _ => x) = if p then x else .error .assertion := by
  by_cases hp : p
  · rw [decide_eq_true hp, if_pos hp]
    rfl
  · rw [decide_eq_false hp, if_neg hp]
    rfl

theorem firstOffset_inRange (h : env.InRange) :
    firstOffset env style = .ok (env.exactFirst style) := by
  have hfront := h.front_le
  have hfirst : env.exactFirst style ≤ 2 ^ 63 - 2 ^ 29 := h.first_le
  unfold firstOffset
  unfold PartitionEnv.exactFirst at hfirst ⊢
  split
  case isTrue => rfl
  case isFalse hold =>
      rw [if_neg hold] at hfirst
      rw [ceilAlignWord_exact env.cluster_pos (by omega), C.ok_bind]
      exact congrArg Except.ok (Nat.mod_eq_of_lt (by omega))

/-- In front of the gap the end of the partition must not be behind the start
of the next one. -/
theorem placeFront_inRange (htrack : 0 < env.bytesPerTrack) {name : PartitionName}
    {size offset : ℕ} (hle : offset + size + env.bytesPerTrack ≤ 2 ^ 64) :
    placeFront env name size offset =
      if offset + size ≤ env.nextOffset (offset + size) then
        .ok (⟨name, offset, size⟩, env.nextOffset (offset + size))
      else .error .assertion := by
  have hceil : ceilAlign (offset + size) env.bytesPerTrack
      < offset + size + env.bytesPerTrack := ceilAlign_lt _ htrack
  have hstop : wrap (offset + size) = offset + size :=
    Nat.mod_eq_of_lt (by omega)
  have hfloor : floorAlignWord 64 (ceilAlign (offset + size) env.bytesPerTrack)
      env.clusterSize
      = .ok (floorAlign (ceilAlign (offset + size) env.bytesPerTrack)
          env.clusterSize) :=
    floorAlignWord_exact env.cluster_pos (by omega)
  unfold PartitionEnv.nextOffset
  simp only [placeFront, hstop, ceilAlignWord_exact htrack hle, hfloor, C.ok_bind,
    C.pure_eq]
  split
  case isTrue => exact assertThat_decide_bind _ _
  case isFalse => exact assertThat_decide_bind _ _

def FrontHolds (env : PartitionEnv) (style : PartitionStyle) (extra : ExtraPartitions) : Prop :=
  (env.espInFront extra ∨ extra.msr → style = .gpt) ∧
    (env.espInFront extra → env.exactFirst style + espSize ≤ env.exactEspEnd style extra) ∧
    (extra.msr → env.exactEspEnd style extra + msrSize ≤ env.exactMain style extra)

/-- The ESP is put in front, if one is. -/
theorem placeEsp_inRange (htrack : 0 < env.bytesPerTrack) (h : env.InRange)
    (hesp : env.espInFront extra = true) :
    placeFront env .esp espSize (env.exactFirst .gpt) =
      if env.exactFirst .gpt + espSize ≤ env.exactEspEnd .gpt extra then
        .ok (⟨.esp, env.exactFirst .gpt, espSize⟩, env.exactEspEnd .gpt extra)
      else .error .assertion := by
  have hfront := h.front_le
  have hfirst : env.exactFirst .gpt = megabyte := if_pos (.inl rfl)
  have hsizes : megabyte + espSize ≤ 2 ^ 29 := by decide
  rw [placeFront_inRange htrack (by rw [hfirst]; omega), PartitionEnv.exactEspEnd, if_pos hesp]

theorem placeMsr_inRange (htrack : 0 < env.bytesPerTrack) (h : env.InRange)
    (hmsr : extra.msr = true) :
    placeFront env .msr msrSize (env.exactEspEnd .gpt extra) =
      if env.exactEspEnd .gpt extra + msrSize ≤ env.exactMain .gpt extra then
        .ok (⟨.msr, env.exactEspEnd .gpt extra, msrSize⟩, env.exactMain .gpt extra)
      else .error .assertion := by
  have hfront := h.front_le
  have hend : env.exactEspEnd .gpt extra ≤ 261 * megabyte + env.bytesPerTrack :=
    PartitionEnv.InRange.espEnd_le htrack
  have hsizes : 261 * megabyte + msrSize ≤ 2 ^ 29 := by decide
  rw [placeFront_inRange htrack (by omega), PartitionEnv.exactMain, if_pos hmsr]

/-- The first assertion that does not hold ends the placing in front. -/
theorem createFront_of_not_holds (htrack : 0 < env.bytesPerTrack) (h : env.InRange)
    (hfails : ¬FrontHolds env style extra) :
    createFront env style extra = .error .assertion := by
  rw [createFront, firstOffset_inRange h, C.ok_bind]
  have hassert (hgpt : style ≠ .gpt) : assertThat (decide (style = .gpt)) = .error .assertion := by
    rw [decide_eq_false hgpt]
    rfl
  cases hesp : env.espInFront extra with
  | true =>
      rw [if_pos rfl]
      by_cases hgpt : style = .gpt
      case neg =>
          rw [hassert hgpt]
          rfl
      subst hgpt
      have hplace := placeEsp_inRange htrack h hesp
      by_cases hstop : env.exactFirst .gpt + espSize ≤ env.exactEspEnd .gpt extra
      case neg =>
          rw [if_neg hstop] at hplace
          simp [hplace]
      rw [if_pos hstop] at hplace
      -- the ESP is placed, so it is the MSR
      obtain ⟨hmsr, hmsrStop⟩ : extra.msr = true ∧
          ¬env.exactEspEnd .gpt extra + msrSize ≤ env.exactMain .gpt extra :=
        Classical.not_imp.mp fun hmsr => hfails ⟨fun _ => rfl, fun _ => hstop, hmsr⟩
      have hmsrPlace := placeMsr_inRange htrack h hmsr
      rw [if_neg hmsrStop] at hmsrPlace
      simp [hplace, hmsr, hmsrPlace]
  | false =>
      rw [if_neg Bool.false_ne_true]
      have hnone {P : Prop} (hin : env.espInFront extra = true) : P :=
        absurd (hesp.symm.trans hin) Bool.false_ne_true
      have hmsr : extra.msr = true := by
        by_contra hmsr
        exact hfails ⟨fun hin => hin.elim hnone fun hin => absurd hin hmsr, hnone,
          fun hin => absurd hin hmsr⟩
      simp only [C.pure_eq, C.ok_bind, hmsr, if_true]
      by_cases hgpt : style = .gpt
      case neg =>
          rw [hassert hgpt]
          rfl
      subst hgpt
      have hsame : env.exactEspEnd .gpt extra = env.exactFirst .gpt := by
        rw [PartitionEnv.exactEspEnd, hesp, if_neg Bool.false_ne_true]
      have hmsrStop : ¬env.exactEspEnd .gpt extra + msrSize ≤ env.exactMain .gpt extra :=
        fun hstop => hfails ⟨fun _ => rfl, hnone, fun _ => hstop⟩
      have hplace := placeMsr_inRange htrack h hmsr
      rw [if_neg hmsrStop, hsame] at hplace
      simp [hplace]

/-- The partitions in front are those that are meant, or an assertion fails. -/
theorem createFront_inRange (htrack : 0 < env.bytesPerTrack) (h : env.InRange) :
    (FrontHolds env style extra ∧ createFront env style extra = .ok
      (env.exactFront style extra, env.exactMain style extra, env.extraBehind extra)) ∨
    (¬FrontHolds env style extra ∧ createFront env style extra = .error .assertion) := by
  by_cases hholds : FrontHolds env style extra
  case neg => exact .inr ⟨hholds, createFront_of_not_holds htrack h hholds⟩
  refine .inl ⟨hholds, createFront_of_places (firstOffset_inRange h) hholds.1 ?_ ?_⟩
  · intro hesp
    obtain rfl := hholds.1 (.inl hesp)
    rw [placeEsp_inRange htrack h hesp, if_pos (hholds.2.1 hesp)]
  · intro hmsr
    obtain rfl := hholds.1 (.inr hmsr)
    rw [placeMsr_inRange htrack h hmsr, if_pos (hholds.2.2 hmsr)]

/-! ## Behind the main partition -/

theorem bytesPerTrack_le (h : env.InRange) : env.bytesPerTrack ≤ 2 ^ 62 := by
  have hfront := h.front_le
  omega

/-- The sizes behind the main partition are those that are meant, but for a
persistent one that wraps; an assertion asks for one that is not 0. -/
theorem extraSizes_inRange (htrack : 0 < env.bytesPerTrack) (h : env.InRange)
    (extra : ExtraPartitions) :
    extraSizes env extra =
      if extra.persistence → env.persistenceSize ≠ 0 then .ok (env.inWords.exactSizes extra)
      else .error .assertion := by
  have hle : env.bytesPerTrack ≤ 2 ^ 62 := bytesPerTrack_le h
  have hcasper : ceilAlignWord 64 env.persistenceSize env.bytesPerTrack
      = .ok (ceilAlign env.inWords.persistenceSize env.bytesPerTrack) := by
    by_cases hfits : env.persistenceSize + env.bytesPerTrack ≤ 2 ^ 64
    · rw [PartitionEnv.inWords, if_pos hfits]
      exact ceilAlignWord_exact htrack hfits
    · rw [PartitionEnv.inWords, if_neg hfits, ceilAlign_zero]
      exact ceilAlignWord_wraps htrack h.persistenceSize_lt (by omega) (by omega)
  split
  case isTrue hpersistence =>
      have hntfs := h.uefiNtfsSize_lt
      exact extraSizes_of_casper htrack hpersistence (fun _ => hcasper)
        (by simp only [espSize, megabyte]; omega) fun _ _ => by omega
  case isFalse hnone =>
      rw [Classical.not_imp, not_not] at hnone
      simp [extraSizes, hnone, assertThat]

/-- The first of the offsets is the lowest. -/
theorem headD_exactOffsets_le_of_mem {track : ℕ} (htrack : 0 < track) (last : ℤ) :
    ∀ sizes : List (PartitionName × ℕ),
      ∀ offset ∈ PartitionEnv.exactOffsets track sizes last,
        (PartitionEnv.exactOffsets track sizes last).headD last ≤ offset
  | (_, size) :: sizes, offset, hmem => by
      have hfloor := Int.ediv_mul_le
        ((PartitionEnv.exactOffsets track sizes last).headD last - size)
        (Int.natCast_ne_zero.mpr htrack.ne')
      rcases List.mem_cons.mp hmem with rfl | hmem
      · exact le_rfl
      · have ih := headD_exactOffsets_le_of_mem htrack last sizes offset hmem
        rw [PartitionEnv.exactOffsets, List.headD_cons]
        omega

/-- The offsets are the ones that are meant below `last`, or an assertion fails. -/
theorem placeBack_inRange {last : ℕ} (htrack : 0 < env.bytesPerTrack)
    (hlast : last < 2 ^ 64) : ∀ sizes : List (PartitionName × ℕ),
      placeBack env sizes last = .error .assertion ∨
      ∃ (offset : ℕ) (placed : List Partition),
        placeBack env sizes last = .ok (offset, placed) ∧ offset ≤ last ∧
        (PartitionEnv.exactOffsets env.bytesPerTrack sizes last).headD last
          = offset
  | [] => .inr ⟨last, [], rfl, le_rfl, rfl⟩
  | (name, size) :: sizes => by
      rcases placeBack_inRange htrack hlast sizes with hrun | ⟨last', placed, hrun,
        hle, hhead⟩
      · exact .inl (by rw [placeBack, hrun]; rfl)
      by_cases hlt : size < last'
      · right
        have hfloor : floorAlign (last' - size) env.bytesPerTrack ≤ last' - size :=
          floorAlign_le _ _
        refine ⟨floorAlign (last' - size) env.bytesPerTrack,
          ⟨name, floorAlign (last' - size) env.bytesPerTrack, size⟩ :: placed,
          ?_, by omega, ?_⟩
        · simp only [placeBack, hrun, hlt, decide_true, assertThat_true,
            wrapSub_of_le hlt.le (show last' - size < 2 ^ 64 by omega), C.ok_bind,
            C.pure_eq,
            floorAlignWord_exact htrack (show last' - size < 2 ^ 64 by omega)]
        · rw [PartitionEnv.exactOffsets, List.headD_cons, hhead, floorAlign,
            Int.natCast_mul, Int.natCast_ediv, Int.natCast_sub hlt.le]
      · left
        simp [placeBack, hrun, hlt, assertThat]

/-- An assertion that fails leaves an offset that is not positive. -/
theorem placeBack_of_pos {last : ℕ} (htrack : 0 < env.bytesPerTrack) (hlast : last < 2 ^ 64)
    {sizes : List (PartitionName × ℕ)}
    (hpos : 0 < (PartitionEnv.exactOffsets env.bytesPerTrack sizes last).headD last) :
    ∃ (offset : ℕ) (placed : List Partition),
      placeBack env sizes last = .ok (offset, placed) ∧ offset ≤ last ∧
      (PartitionEnv.exactOffsets env.bytesPerTrack sizes last).headD last = offset := by
  obtain ⟨offset, placed, hrun, hhead, hlaid, -⟩ :=
    placeBack_exact htrack hlast sizes fun offset hmem =>
      lt_of_lt_of_le hpos (headD_exactOffsets_le_of_mem htrack last sizes offset hmem)
  exact ⟨offset, placed, hrun, hlaid.le, hhead⟩

/-! ## The main partition -/

/-- What is between `offset` and `last` is rounded as it is meant, if it is a
positive `LONGLONG`. -/
theorem mainPartitionSize_inRange (htrack : 0 < env.bytesPerTrack) {offset last : ℕ}
    (hoffset : offset < 2 ^ 63) (hlast : last < 2 ^ 64) :
    if 0 < (last : ℤ) - offset ∧ (last : ℤ) - offset < 2 ^ 63 then
      ∃ size : ℕ, mainPartitionSize env offset last = .ok size ∧
        (size : ℤ) = env.roundedMain ((last : ℤ) - offset)
    else mainPartitionSize env offset last = .error .assertion := by
  split
  case isTrue hroom =>
      have hlt : offset < last := by omega
      have hwrap : wrapSub 64 last offset = last - offset :=
        wrapSub_of_le hlt.le (by omega)
      have hpos : 0 < last - offset ∧ last - offset < 2 ^ 63 := by omega
      obtain ⟨main, hmain⟩ : ∃ main, (if env.writeAsEsp then
          min (last - offset) maxIsoToEspSize else last - offset) = main := ⟨_, rfl⟩
      have hle : main ≤ last - offset := by
        rw [← hmain]
        split
        case isTrue => exact Nat.min_le_left _ _
        case isFalse => exact le_rfl
      have hexact : (if env.writeAsEsp then
          min ((last : ℤ) - offset) maxIsoToEspSize else (last : ℤ) - offset)
          = (main : ℤ) := by
        rw [← hmain]
        split <;> omega
      have hfloor : floorAlign main env.bytesPerTrack ≤ main := floorAlign_le _ _
      simp only [mainPartitionSize, hwrap, hpos, and_self, decide_true,
        assertThat_true, C.ok_bind, C.pure_eq, hmain,
        floorAlignWord_exact htrack (show main < 2 ^ 64 by omega),
        PartitionEnv.roundedMain, hexact]
      split
      case isTrue =>
          rw [floorAlignWord_exact env.cluster_pos (by omega)]
          exact ⟨_, rfl, by simp [floorAlign]⟩
      case isFalse => exact ⟨_, rfl, by simp [floorAlign]⟩
  case isFalse hroom =>
      have hassert : ¬(0 < wrapSub 64 last offset ∧ wrapSub 64 last offset < 2 ^ 63) := by
        unfold wrapSub
        omega
      simp only [mainPartitionSize, hassert, decide_false, assertThat,
        Bool.false_eq_true, if_false]
      rfl

/-- Without a track the size of the main partition is divided by 0, where no
assertion fails in front of that. -/
theorem mainPartitionSize_no_track (htrack : env.bytesPerTrack = 0) (offset last size : ℕ) :
    mainPartitionSize env offset last ≠ .ok size := by
  intro hrun
  obtain ⟨-, -, hrun⟩ := C.bind_eq_ok.mp hrun
  obtain ⟨aligned, hfloor, -⟩ := C.bind_eq_ok.mp hrun
  simp [floorAlignWord, divide, htrack] at hfloor

/-! ## The layout as a whole -/

theorem lastOffset_inRange (h : env.InRange) :
    (lastOffset env style : ℤ) = env.wordEnd style := by
  have hdisk := h.diskSize_lt
  have hsector := h.sectorSize_lt
  unfold PartitionEnv.wordEnd PartitionEnv.exactEnd lastOffset
  split
  case isTrue =>
      unfold wrapSub
      omega
  case isFalse => omega

theorem lastOffset_lt (h : env.InRange) : lastOffset env style < 2 ^ 64 := by
  have hdisk := h.diskSize_lt
  unfold lastOffset wrapSub
  split <;> omega

def layoutBehind (env : PartitionEnv) (style : PartitionStyle) (front : List Partition)
    (mainOffset : ℕ) (sizes : List (PartitionName × ℕ)) : C (Option (List Partition)) := do
  let (last, back) ← placeBack env sizes (lastOffset env style)
  let size ← mainPartitionSize env mainOffset last
  if size = 0 then return none
  else return some (front ++ ⟨.main, mainOffset, size⟩ :: back)

/-- The partitions behind the main one and the main one itself, or an assertion
fails. -/
theorem layoutBehind_inRange (htrack : 0 < env.bytesPerTrack) (h : env.InRange)
    (hmain : env.exactMain style extra < 2 ^ 63) (front : List Partition) :
    if 0 < env.wordMainSize style extra ∧ env.wordMainSize style extra < 2 ^ 63 then
      ∃ (back : List Partition) (size : ℕ),
        (size : ℤ) = env.roundedMain (env.wordMainSize style extra) ∧
        layoutBehind env style front (env.exactMain style extra)
          (env.inWords.exactSizes (env.extraBehind extra)) =
          .ok (if size = 0 then none
            else some (front ++ ⟨.main, env.exactMain style extra, size⟩ :: back))
    else layoutBehind env style front (env.exactMain style extra)
      (env.inWords.exactSizes (env.extraBehind extra)) = .error .assertion := by
  have hlast : lastOffset env style < 2 ^ 64 := lastOffset_lt h
  have hend : (lastOffset env style : ℤ) = env.wordEnd style := lastOffset_inRange h
  obtain ⟨head, hhead⟩ : ∃ head, (PartitionEnv.exactOffsets env.bytesPerTrack
    (env.inWords.exactSizes (env.extraBehind extra)) (lastOffset env style)).headD
      (lastOffset env style) = head := ⟨_, rfl⟩
  have hword : env.wordMainSize style extra = head - env.exactMain style extra := by
    rw [PartitionEnv.wordMainSize, ← hend, hhead]
  have hsize {offset : ℕ} (hle : offset ≤ lastOffset env style) :=
    mainPartitionSize_inRange htrack hmain (lt_of_le_of_lt hle hlast)
  rw [hword]
  split
  case isTrue hroom =>
      have hpos : 0 < head := by omega
      rw [← hhead] at hpos
      obtain ⟨offset, back, hback, hle, hoffset⟩ := placeBack_of_pos htrack hlast hpos
      obtain rfl : head = offset := hhead.symm.trans hoffset
      replace hsize := hsize hle
      rw [if_pos hroom] at hsize
      obtain ⟨size, hsize, hrounded⟩ := hsize
      refine ⟨back, size, hrounded, ?_⟩
      rw [layoutBehind, hback, C.ok_bind]
      dsimp only
      rw [hsize, C.ok_bind]
      split <;> rfl
  case isFalse hroom =>
      rcases placeBack_inRange htrack hlast
        (env.inWords.exactSizes (env.extraBehind extra)) with hback | ⟨offset, back,
        hback, hle, hoffset⟩
      · rw [layoutBehind, hback]
        rfl
      · obtain rfl : head = offset := hhead.symm.trans hoffset
        replace hsize := hsize hle
        rw [if_neg hroom] at hsize
        rw [layoutBehind, hback, C.ok_bind]
        dsimp only
        rw [hsize]
        rfl

theorem partitionCount_le :
    (env.exactFront style extra).length + 1
      + (env.inWords.exactSizes (env.extraBehind extra)).length ≤ maxPartitions := by
  have hfront : (env.exactFront style extra).length ≤ 2 := exactFront_length
  have hbehind : (env.inWords.exactSizes (env.extraBehind extra)).length ≤ 2 :=
    exactSizes_length
  have hmax : maxPartitions = 16 := rfl
  omega

/-- The layout with a table, for a `uefi-ntfs.img` that is there if it is
needed: its main partition is rounded as it is meant, or an assertion fails. -/
theorem partitionLayout_inRange (htrack : 0 < env.bytesPerTrack) (h : env.InRange)
    (hstyle : style ≠ .sfd) (huefi : ¬(extra.uefiNtfs ∧ env.uefiNtfsSize = 0)) :
    (env.AssertionsHold style extra ∧ ∃ (back : List Partition) (size : ℕ),
      (size : ℤ) = env.roundedMain (env.wordMainSize style extra) ∧
      partitionLayout env style extra =
        .ok (if size = 0 then none
          else some (env.exactFront style extra
            ++ ⟨.main, env.exactMain style extra, size⟩ :: back))) ∨
    (¬env.AssertionsHold style extra ∧
      partitionLayout env style extra = .error .assertion) := by
  rw [partitionLayout, if_neg hstyle, if_neg huefi]
  rcases createFront_inRange htrack h with ⟨hfront, hrun⟩ | ⟨hfront, hrun⟩
  case inr =>
      refine .inr ⟨fun hholds =>
        hfront ⟨hholds.gpt, hholds.espStop_le, hholds.msrStop_le⟩, ?_⟩
      rw [hrun]
      rfl
  have hmain : env.exactMain style extra < 2 ^ 63 :=
    h.main_le htrack fun hin => hfront.1 hin.symm
  rw [hrun, C.ok_bind]
  dsimp only
  rw [extraSizes_inRange htrack h]
  by_cases hpersistence : (env.extraBehind extra).persistence → env.persistenceSize ≠ 0
  case neg =>
      refine .inr ⟨fun hholds => hpersistence hholds.persistence, ?_⟩
      rw [if_neg hpersistence]
      rfl
  rw [if_pos hpersistence, C.ok_bind, decide_eq_true partitionCount_le, assertThat_true,
    C.ok_bind]
  have hbehind := layoutBehind_inRange htrack h hmain (env.exactFront style extra)
  by_cases hroom : 0 < env.wordMainSize style extra ∧ env.wordMainSize style extra < 2 ^ 63
  · rw [if_pos hroom] at hbehind
    exact .inl ⟨⟨hfront.1, hfront.2.1, hfront.2.2, hpersistence, hroom.1, hroom.2⟩, hbehind⟩
  · rw [if_neg hroom] at hbehind
    exact .inr ⟨fun hholds => hroom ⟨hholds.mainSize_pos, hholds.mainSize_lt⟩, hbehind⟩

theorem partitionLayout_no_track (htrack : env.bytesPerTrack = 0) (hstyle : style ≠ .sfd)
    (huefi : ¬(extra.uefiNtfs ∧ env.uefiNtfsSize = 0)) (layout : Option (List Partition)) :
    partitionLayout env style extra ≠ .ok layout := by
  rw [partitionLayout, if_neg hstyle, if_neg huefi]
  intro hrun
  obtain ⟨⟨front, mainOffset, left⟩, -, hrun⟩ := C.bind_eq_ok.mp hrun
  obtain ⟨sizes, -, hrun⟩ := C.bind_eq_ok.mp hrun
  obtain ⟨checked, -, hrun⟩ := C.bind_eq_ok.mp hrun
  obtain ⟨⟨last, back⟩, -, hrun⟩ := C.bind_eq_ok.mp hrun
  obtain ⟨size, hsize, -⟩ := C.bind_eq_ok.mp hrun
  exact mainPartitionSize_no_track htrack _ _ size hsize

/-- The layout is refused where the image is missing, and where it is the
rounding that leaves nothing of the main partition. -/
theorem partitionLayout_eq_none_iff (h : env.InRange) :
    partitionLayout env style extra = .ok none ↔
      style ≠ .sfd ∧ ((extra.uefiNtfs ∧ env.uefiNtfsSize = 0) ∨
        env.RoundedAway style extra) := by
  by_cases hstyle : style = .sfd
  · have hrun : partitionLayout env style extra = .ok (some []) := if_pos hstyle
    rw [hrun]
    exact iff_of_false (fun hnone => nomatch hnone) fun hnone => hnone.1 hstyle
  by_cases huefi : extra.uefiNtfs ∧ env.uefiNtfsSize = 0
  · have hrun : partitionLayout env style extra = .ok none := by
      rw [partitionLayout, if_neg hstyle, if_pos huefi]
      rfl
    exact iff_of_true hrun ⟨hstyle, .inl huefi⟩
  rw [and_iff_right hstyle, or_iff_right huefi]
  rcases Nat.eq_zero_or_pos env.bytesPerTrack with htrack | htrack
  · exact iff_of_false (partitionLayout_no_track htrack hstyle huefi none)
      fun haway => absurd haway.track_pos (htrack ▸ Nat.lt_irrefl 0)
  rcases partitionLayout_inRange htrack h hstyle huefi with
    ⟨hholds, back, size, hrounded, hrun⟩ | ⟨hholds, hrun⟩
  case inr =>
      rw [hrun]
      exact iff_of_false C.error_ne_ok fun haway => hholds haway.assertions
  rw [hrun]
  constructor
  · intro hnone
    refine ⟨htrack, hholds, ?_⟩
    by_cases hzero : size = 0
    · rw [← hrounded, hzero]
      rfl
    · rw [if_neg hzero] at hnone
      cases hnone
  · intro haway
    have hzero : size = 0 := by
      have hrounds := haway.rounded
      omega
    rw [if_pos hzero]

/-! ## What is done to the drive -/

theorem uptoMain_ne_nil : ∀ {parts : List Partition}, parts ≠ [] → uptoMain parts ≠ []
  | p :: parts, _ => by
      rw [uptoMain]
      split
      · exact List.cons_ne_nil _ _
      · exact List.cons_ne_nil _ _

/-- Where there are partitions, the first sectors of one are cleared at least. -/
theorem writeLayout_touches {parts : List Partition} (hparts : parts ≠ [])
    (replies : DriveReplies) : (writeLayout env style extra replies parts).1 ≠ [] := by
  have hclear : parts.map (clearPartition env) ≠ [] := by
    rwa [Ne, List.map_eq_nil_iff]
  unfold writeLayout
  split
  case isTrue =>
      rw [Ne, List.map_eq_nil_iff]
      exact uptoMain_ne_nil hparts
  case isFalse =>
      dsimp only
      split
      · exact hclear
      · split <;> split <;> (try split) <;> (try split) <;> simp [hparts]

/-- A layout with a table has the main partition. -/
theorem partitionLayout_ne_nil {parts : List Partition} (hstyle : style ≠ .sfd)
    (hrun : partitionLayout env style extra = .ok (some parts)) : parts ≠ [] := by
  rw [partitionLayout, if_neg hstyle] at hrun
  split at hrun
  case isTrue => cases hrun
  case isFalse =>
      obtain ⟨⟨front, mainOffset, left⟩, -, hrun⟩ := C.bind_eq_ok.mp hrun
      obtain ⟨sizes, -, hrun⟩ := C.bind_eq_ok.mp hrun
      obtain ⟨checked, -, hrun⟩ := C.bind_eq_ok.mp hrun
      obtain ⟨⟨last, back⟩, -, hrun⟩ := C.bind_eq_ok.mp hrun
      obtain ⟨size, -, hrun⟩ := C.bind_eq_ok.mp hrun
      split at hrun
      case isTrue => cases hrun
      case isFalse =>
          cases hrun
          exact List.append_ne_nil_of_right_ne_nil _ (List.cons_ne_nil _ _)

/-- `FALSE` before anything is done comes from the layout. -/
theorem createPartition_eq_false_iff (replies : DriveReplies) :
    createPartition env style extra replies = ([], .ok false) ↔
      partitionLayout env style extra = .ok none := by
  unfold createPartition
  cases hrun : partitionLayout env style extra with
  | error fault => exact iff_of_false (fun h => nomatch h) C.error_ne_ok
  | ok layout =>
      cases layout with
      | none => exact iff_of_true rfl rfl
      | some parts =>
          refine iff_of_false (fun h => ?_) fun h => nomatch h
          dsimp only at h
          split at h
          case isTrue => cases h
          case isFalse hstyle =>
              exact writeLayout_touches (partitionLayout_ne_nil hstyle hrun) replies
                (congrArg Prod.fst h)

theorem exactSizes_inWords
    (hfits : extra.persistence → env.persistenceSize + env.bytesPerTrack ≤ 2 ^ 64) :
    env.inWords.exactSizes (env.extraBehind extra) = env.exactSizes (env.extraBehind extra) := by
  by_cases hin : extra.persistence = true
  · rw [PartitionEnv.inWords, if_pos (hfits hin)]
  · have hnone : (env.extraBehind extra).persistence = false := Bool.not_eq_true _ ▸ hin
    simp only [PartitionEnv.exactSizes, hnone, Bool.false_eq_true, if_false]
    rfl

/-- Where nothing wraps, 64 bits see what there is. -/
theorem wordMainSize_exact (h : env.InRange)
    (hfits : extra.persistence → env.persistenceSize + env.bytesPerTrack ≤ 2 ^ 64)
    (hend : style = .gpt → 33 * env.sectorSize ≤ env.diskSize) :
    env.wordMainSize style extra = env.exactMainSize style extra := by
  have hdisk := h.diskSize_lt
  have hword : env.wordEnd style = env.exactEnd style := by
    unfold PartitionEnv.wordEnd PartitionEnv.exactEnd
    split
    case isTrue hgpt =>
        have hle := hend hgpt
        exact Int.emod_eq_of_lt (by omega) (by omega)
    case isFalse => exact Int.emod_eq_of_lt (by omega) (by omega)
  rw [PartitionEnv.wordMainSize, exactSizes_inWords hfits, hword]
  rfl

/-- **What does not fit leaves the drive alone**, as long as nothing wraps: a
persistent size that can be rounded, and a GPT disk of 33 sectors. -/
theorem createPartition_untouched (h : env.InRange)
    (hfits : extra.persistence → env.persistenceSize + env.bytesPerTrack ≤ 2 ^ 64)
    (hend : style = .gpt → 33 * env.sectorSize ≤ env.diskSize)
    (hroom : ¬env.HasRoom style extra) (replies : DriveReplies) :
    (createPartition env style extra replies).1 = [] := by
  have hexact : env.wordMainSize style extra = env.exactMainSize style extra :=
    wordMainSize_exact h hfits hend
  unfold createPartition
  cases hrun : partitionLayout env style extra with
  | error fault => rfl
  | ok layout =>
      cases layout with
      | none => rfl
      | some parts =>
          dsimp only
          split
          case isTrue => rfl
          case isFalse hstyle =>
              -- the assertions held and something was left, so there was room
              exfalso
              have huefi : ¬(extra.uefiNtfs ∧ env.uefiNtfsSize = 0) := by
                intro hin
                rw [partitionLayout, if_neg hstyle, if_pos hin] at hrun
                cases hrun
              rcases Nat.eq_zero_or_pos env.bytesPerTrack with htrack | htrack
              · exact partitionLayout_no_track htrack hstyle huefi _ hrun
              rcases partitionLayout_inRange htrack h hstyle huefi with
                ⟨hholds, back, size, hrounded, hlayout⟩ | ⟨-, hlayout⟩
              case inr => exact C.error_ne_ok (hlayout.symm.trans hrun)
              rw [hlayout] at hrun
              have hmain : 0 < env.exactMainSize style extra := hexact ▸ hholds.mainSize_pos
              have hsize : size ≠ 0 := by
                intro hzero
                rw [if_pos hzero] at hrun
                cases hrun
              refine hroom ⟨fun offset hoffset => ?_, hmain, ?_⟩
              · have hlow := headD_exactOffsets_le_of_mem htrack (env.exactEnd style) _
                  offset hoffset
                unfold PartitionEnv.exactMainSize PartitionEnv.exactBehind at hmain
                omega
              · rw [← hexact, ← hrounded]
                omega

/-- **`CreatePartition` refuses with `FALSE` what the rounding takes away**, and
nothing else that does not fit: behind the check of the image there is only the
one of the rounded size. A larger shortage fails an assertion, or is not seen
because it wraps. -/
theorem createPartition_refuses_iff (h : env.InRange) (replies : DriveReplies) :
    (¬env.HasRoom style extra →
      createPartition env style extra replies = ([], .ok false)) ↔
    env.HasRoom style extra ∨
      style ≠ .sfd ∧ ((extra.uefiNtfs ∧ env.uefiNtfsSize = 0) ∨
        env.RoundedAway style extra) := by
  rw [createPartition_eq_false_iff, partitionLayout_eq_none_iff h]
  exact Classical.or_iff_not_imp_left.symm

end

/-- A disk of little more than a megabyte: less than a track is left. -/
def tinyDisk : PartitionEnv := { stick with diskSize := 1048576 + 4096 }

theorem tinyDisk_noRoom : ¬tinyDisk.HasRoom .mbr ⟨false, false, false, false, false⟩ :=
  fun h => absurd h.rounded_pos (by decide)

theorem createPartition_refuses_tinyDisk :
    createPartition tinyDisk .mbr ⟨false, false, false, false, false⟩
      ⟨true, true, true, true, true, true, true⟩ = ([], .ok false) :=
  (createPartition_refuses_iff
    { front_le := by decide
      sectorSize_lt := by decide
      diskSize_lt := by decide
      uefiNtfsSize_lt := by decide
      persistenceSize_lt := by decide }
    ⟨true, true, true, true, true, true, true⟩).mpr
    (.inr ⟨by decide, .inr
      { track_pos := by decide
        assertions :=
          { gpt := by decide
            espStop_le := by decide
            msrStop_le := by decide
            persistence := by decide
            mainSize_pos := by decide
            mainSize_lt := by decide }
        rounded := by decide }⟩)
    tinyDisk_noRoom

/-- A persistent partition of the size of the disk: an assertion fails. And one
whose size wraps when it is rounded: the drive is written to. -/
theorem createPartition_not_refused :
    ¬({ stick with diskSize := 2 ^ 32 } : PartitionEnv).HasRoom .mbr
      ⟨false, false, false, false, true⟩ ∧
    createPartition { stick with diskSize := 2 ^ 32 } .mbr
      ⟨false, false, false, false, true⟩ ⟨true, true, true, true, true, true, true⟩
      = ([], .error .assertion) ∧
    ¬({ stick with persistenceSize := 2 ^ 64 - 1 } : PartitionEnv).HasRoom .gpt
      ⟨false, false, false, false, true⟩ ∧
    (createPartition { stick with persistenceSize := 2 ^ 64 - 1 } .gpt
      ⟨false, false, false, false, true⟩
      ⟨true, true, true, true, true, true, true⟩).1 ≠ [] := by
  refine ⟨fun h => absurd h.offsets_pos (by decide), by decide,
    fun h => absurd h.offsets_pos (by decide), by decide⟩

end Nawam
