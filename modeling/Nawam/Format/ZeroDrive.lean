import Nawam.Format.WriteDrive
import Mathlib.Tactic.IntervalCases

/-!
# Zeroing a drive

The other branch of `WriteDrive`. Where `fast_zeroing` is set, a block is read
before it is written, and left as it is if all its bits are the same; a block
that is not is filled with ones, and after it fifteen more are written unread.
All of this shares the file pointer of the drive with the writes and their
retries, and `Zeroing.At` says that at the head of the loop it is at `wb`
again, whichever way the turn went.
-/

namespace Nawam

/-! ## Source -/

structure ZeroJob where
  /-- `SelectedDrive` -/
  diskSize : ℕ
  sectorSize : ℕ
  fastZeroing : Bool
  /-- the `SetFilePointerEx` to the start of the drive went through -/
  rewound : Bool
  /-- there is memory for the buffers -/
  allocated : Bool

/-- What the system answers in a turn of the loop. -/
structure ZeroRound where
  /-- the user has cancelled before the block is read -/
  cancelled : Bool
  /-- the whole block was read -/
  read : Bool
  /-- the `SetFilePointerEx` back to the block went through -/
  repositioned : Bool
  attempt : ℕ → Attempt

/-- The drive and the variables of the branch. -/
structure Zeroing where
  drive : Memory
  /-- the file pointer of the drive -/
  pos : ℕ
  wb : ℕ
  /-- `read_size[0]` -/
  readSize : ℕ
  /-- `throttle_fast_zeroing` -/
  throttle : ℕ

/-- `_mm_malloc`, which refuses an alignment that is not a power of two. -/
def mmMalloc (granted : Bool) (alignment : ℕ) : Bool :=
  granted && 2 ^ alignment.log2 == alignment

namespace ZeroJob

def bufSize (job : ZeroJob) : C ℕ := ceilAlignWord 32 ddBufferSize job.sectorSize

def fill (job : ZeroJob) : UInt8 := if job.fastZeroing then 0xff else 0

end ZeroJob

/-- The `i`th element of `cmp_buffer`. -/
def word32 (cmp : Memory) (i : ℕ) : ℕ := leValue (slice cmp (4 * i) 4)

/-- The first element has all bits the same, and the loop over the others gets
to the end. -/
def isEmptyBlock (cmp : Memory) (size : ℕ) : Bool :=
  let zeroData := word32 cmp 0
  (zeroData = 0 || zeroData = 0xffffffff) &&
    (List.range' 1 (size / 4 - 1)).all fun i => word32 cmp i = zeroData

/-- A `WriteFile` of `size` bytes from the buffer. -/
def writeFill (job : ZeroJob) (size : ℕ) (attempt : Attempt) (s : Zeroing) :
    Bool × Zeroing :=
  if attempt.succeeded ∧ attempt.written = size then
    (true, { s with
      drive := blit s.drive s.pos (fun _ => job.fill) 0 size
      pos := s.pos + size })
  else
    (false, { s with
      drive := blit s.drive s.pos attempt.debris 0 size
      pos := attempt.pos })

/-- The loop around `WriteFile` with so many tries left; `false` is the jump
to `out`. -/
def fillWithRetry (job : ZeroJob) (size : ℕ) (attempt : ℕ → Attempt) :
    ℕ → Zeroing → Bool × Zeroing
  | 0, s => (false, s)
  | left + 1, s =>
      if (attempt left).cancelled then (false, s)
      else
        let (written, s) := writeFill job size (attempt left) s
        if written then (true, s)
        else if left = 0 then (false, s)
        else if (attempt left).repositioned then
          fillWithRetry job size attempt left { s with pos := s.wb }
        else (false, s)

def fillBlock (job : ZeroJob) (bufSize size : ℕ) (attempt : ℕ → Attempt)
    (s : Zeroing) : C (Bool × Zeroing) :=
  if size ≤ bufSize then
    let (written, s) := fillWithRetry job size attempt writeRetries s
    if written then .ok (true, { s with wb := (s.wb + size) % 2 ^ 64 })
    else .ok (false, s)
  else .error .outOfBounds

/-- The size of the next block, no more than what is left, in whole sectors. -/
def blockSizeAt (job : ZeroJob) (s : Zeroing) : C ℕ := do
  let size := if job.diskSize < (s.wb + s.readSize) % 2 ^ 64 then
    wrapSub 64 job.diskSize s.wb % 2 ^ 32 else s.readSize
  if size % job.sectorSize ≠ 0 then ceilAlignWord 32 size job.sectorSize
  else return size

def zeroRound (job : ZeroJob) (bufSize : ℕ) (round : ZeroRound) (s : Zeroing) :
    C (Bool × Zeroing) := do
  let size ← blockSizeAt job s
  let s := { s with readSize := size }
  if s.throttle ≠ 0 then
    fillBlock job bufSize size round.attempt { s with throttle := s.throttle - 1 }
  else if job.fastZeroing then
    if round.cancelled then return (false, s)
    else if size ≤ bufSize then
      if round.read = false then return (false, s)
      else
        let cmp : Memory := fun i => s.drive (s.pos + i)
        let s := { s with pos := s.pos + size }
        if isEmptyBlock cmp size then
          return (true, { s with wb := (s.wb + size) % 2 ^ 64 })
        else if round.repositioned = false then return (false, s)
        else
          fillBlock job bufSize size round.attempt
            { s with pos := s.wb, throttle := 15 }
    else .error .outOfBounds
  else fillBlock job bufSize size round.attempt s

/-- The loop: `some` of what the branch returns, `none` where the script ends
first. -/
def zeroLoop (job : ZeroJob) (bufSize : ℕ) :
    List ZeroRound → Zeroing → C (Option Bool × Zeroing)
  | rounds, s =>
      if job.diskSize ≤ s.wb then return (some true, s)
      else
        match rounds with
        | [] => return (none, s)
        | round :: rounds => do
            let (zeroed, s) ← zeroRound job bufSize round s
            if zeroed then zeroLoop job bufSize rounds s
            else return (some false, s)

/-- `WriteDrive` with `bZeroDrive`, on a drive whose file pointer is at `pos`. -/
def zeroDrive (job : ZeroJob) (drive : Memory) (pos : ℕ) (rounds : List ZeroRound) :
    C (Option Bool × Zeroing) := do
  let s : Zeroing := { drive := drive, pos := pos, wb := 0, readSize := 0, throttle := 0 }
  if job.sectorSize < 512 then return (some false, s)
  else
    -- where it cannot be rewound there is only a warning
    let s := { s with pos := if job.rewound then 0 else pos }
    let bufSize ← job.bufSize
    if mmMalloc job.allocated job.sectorSize = false then return (some false, s)
    else zeroLoop job bufSize rounds { s with readSize := bufSize }

/-! ## The blocks -/

/-- What may be left of a block: zeros, or with `fast_zeroing` ones. -/
def ZeroJob.Blank (job : ZeroJob) (c : UInt8) : Prop :=
  c = 0 ∨ job.fastZeroing = true ∧ c = 0xff

/-- Every block is blank up to `stop`. -/
def BlankTo (job : ZeroJob) (bufSize stop : ℕ) (drive : Memory) : Prop :=
  ∀ k, ∃ c, job.Blank c ∧
    ∀ i < stop, k * bufSize ≤ i → i < (k + 1) * bufSize → drive i = c

section

variable {job : ZeroJob} {bufSize size : ℕ} {c : UInt8}

theorem ZeroJob.fill_blank (job : ZeroJob) : job.Blank job.fill := by
  unfold fill Blank
  cases job.fastZeroing with
  | false => exact .inl rfl
  | true => exact .inr ⟨rfl, rfl⟩

theorem BlankTo.extend {wb : ℕ} {drive drive' : Memory}
    (h : BlankTo job bufSize wb drive) (hdvd : bufSize ∣ wb) (hc : job.Blank c)
    (hbefore : ∀ i < wb, drive' i = drive i)
    (hblock : ∀ j < size, drive' (wb + j) = c) :
    BlankTo job bufSize (wb + size) drive' := by
  obtain ⟨n, rfl⟩ := hdvd
  intro k
  rcases Nat.lt_or_ge k n with hk | hk
  · obtain ⟨c', hc', hold⟩ := h k
    refine ⟨c', hc', fun i _ hlow hhigh => ?_⟩
    have hin : i < bufSize * n := by
      calc i < (k + 1) * bufSize := hhigh
        _ ≤ n * bufSize := Nat.mul_le_mul_right bufSize hk
        _ = bufSize * n := Nat.mul_comm n bufSize
    rw [hbefore i hin]
    exact hold i hin hlow hhigh
  · refine ⟨c, hc, fun i hi hlow _ => ?_⟩
    have hge : bufSize * n ≤ i := by
      calc bufSize * n = n * bufSize := Nat.mul_comm bufSize n
        _ ≤ k * bufSize := Nat.mul_le_mul_right bufSize hk
        _ ≤ i := hlow
    obtain ⟨j, rfl⟩ := Nat.exists_eq_add_of_le hge
    exact hblock j (by omega)

/-- A word with all bits the same has all bytes the same. -/
theorem bytes_of_word32 {cmp : Memory} {i : ℕ} (hc : c = 0 ∨ c = 0xff)
    (h : word32 cmp i = c.toNat * 0x01010101) : ∀ j < 4, cmp (4 * i + j) = c := by
  have hword : word32 cmp i = (cmp (4 * i + 0)).toNat + 256 * ((cmp (4 * i + 1)).toNat
      + 256 * ((cmp (4 * i + 2)).toNat + 256 * (cmp (4 * i + 3)).toNat)) := rfl
  have h0 := (cmp (4 * i + 0)).toNat_lt
  have h1 := (cmp (4 * i + 1)).toNat_lt
  have h2 := (cmp (4 * i + 2)).toNat_lt
  have h3 := (cmp (4 * i + 3)).toNat_lt
  intro j hj
  apply UInt8.toNat_inj.mp
  rcases hc with rfl | rfl
  · have hzero : (0 : UInt8).toNat = 0 := rfl
    rw [hzero] at h ⊢
    interval_cases j <;> omega
  · have hones : (0xff : UInt8).toNat = 255 := rfl
    rw [hones] at h ⊢
    interval_cases j <;> omega

/-- **A block that is found empty is one.** -/
theorem isEmptyBlock_blank {cmp : Memory} (hpos : 0 < size) (hdvd : 4 ∣ size)
    (h : isEmptyBlock cmp size = true) :
    ∃ c, (c = 0 ∨ c = 0xff) ∧ ∀ i < size, cmp i = c := by
  obtain ⟨n, rfl⟩ := hdvd
  simp only [isEmptyBlock, Bool.and_eq_true, Bool.or_eq_true, decide_eq_true_eq,
    List.all_eq_true, List.mem_range'_1, Nat.mul_div_cancel_left n (show 0 < 4 by decide)] at h
  obtain ⟨hfirst, hrest⟩ := h
  have hwords : ∀ i < n, word32 cmp i = word32 cmp 0 := by
    intro i hi
    rcases Nat.eq_zero_or_pos i with rfl | hi'
    · rfl
    · exact hrest i (by omega)
  obtain ⟨c, hc, hword⟩ : ∃ c : UInt8, (c = 0 ∨ c = 0xff) ∧
      word32 cmp 0 = c.toNat * 0x01010101 := by
    rcases hfirst with hzero | hones
    · exact ⟨0, .inl rfl, hzero⟩
    · exact ⟨0xff, .inr rfl, hones⟩
  refine ⟨c, hc, fun i hi => ?_⟩
  have hbyte := bytes_of_word32 hc ((hwords (i / 4) (by omega)).trans hword) (i % 4)
    (Nat.mod_lt i (by decide))
  rwa [Nat.div_add_mod] at hbyte

/-! ## The writes -/

variable {rewound : Prop} {s : Zeroing}

/-- However many tries it takes, the block ends up at `wb`, where every try
starts, and nothing before it changes. -/
theorem fillWithRetry_fills (attempt : ℕ → Attempt) : ∀ (left : ℕ) (s : Zeroing)
    {written : Bool} {s' : Zeroing}, (rewound → s.pos = s.wb) →
    fillWithRetry job size attempt left s = (written, s') →
    s' = { s with drive := s'.drive, pos := s'.pos } ∧
      (rewound → ∀ i < s.wb, s'.drive i = s.drive i) ∧
      (written = true → rewound → s'.pos = s.wb + size ∧
        ∀ j < size, s'.drive (s.wb + j) = job.fill)
  | 0, s, _, _, _, h => by
      cases h
      exact ⟨rfl, fun _ _ _ => rfl, fun hfalse => nomatch hfalse⟩
  | left + 1, s, written, s', hpos, h => by
      unfold fillWithRetry writeFill at h
      split at h
      case isTrue =>
        cases h
        exact ⟨rfl, fun _ _ _ => rfl, fun hfalse => nomatch hfalse⟩
      case isFalse =>
        by_cases hall : (attempt left).succeeded ∧ (attempt left).written = size
        · simp only [hall, and_self, if_true] at h
          cases h
          refine ⟨rfl, fun hr i hi => ?_, fun _ hr => ⟨?_, fun j hj => ?_⟩⟩
          · show blit s.drive s.pos (fun _ => job.fill) 0 size i = s.drive i
            exact blit_outside (.inl (hpos hr ▸ hi))
          · show s.pos + size = s.wb + size
            rw [hpos hr]
          · show blit s.drive s.pos (fun _ => job.fill) 0 size (s.wb + j) = job.fill
            rw [← hpos hr, blit_inside hj]
        · have hbefore (hr : rewound) (i : ℕ) (hi : i < s.wb) :
              blit s.drive s.pos (attempt left).debris 0 size i = s.drive i :=
            blit_outside (.inl (hpos hr ▸ hi))
          simp only [hall, if_false, Bool.false_eq_true] at h
          split at h
          case isTrue =>
            cases h
            exact ⟨rfl, hbefore, fun hfalse => nomatch hfalse⟩
          case isFalse =>
            split at h
            case isTrue =>
              obtain ⟨hframe, hkept, hfilled⟩ :=
                fillWithRetry_fills attempt left _ (fun _ => rfl) h
              refine ⟨by rw [hframe], fun hr i hi => ?_, hfilled⟩
              exact (hkept hr i hi).trans (hbefore hr i hi)
            case isFalse =>
              cases h
              exact ⟨rfl, hbefore, fun hfalse => nomatch hfalse⟩

/-! ## A turn of the loop -/

/-- What the sizes are, where there is a buffer: whole sectors, and sums of
them stay within their types. -/
structure ZeroJob.Sized (job : ZeroJob) (bufSize : ℕ) : Prop where
  disk_dvd : job.sectorSize ∣ job.diskSize
  sector_dvd : job.sectorSize ∣ bufSize
  pos : 0 < bufSize
  four_dvd : 4 ∣ job.sectorSize
  bufSize_lt : bufSize < 2 ^ 32
  diskSize_lt : job.diskSize < 2 ^ 63

/-- The head of the loop: up to `wb` the blocks are blank, and the file pointer
is there. -/
structure Zeroing.At (job : ZeroJob) (bufSize : ℕ) (rewound : Prop) (s : Zeroing) :
    Prop where
  pos_eq : rewound → s.pos = s.wb
  wb_le : s.wb ≤ job.diskSize
  whole : s.wb < job.diskSize → bufSize ∣ s.wb ∧ s.readSize = bufSize
  blank : rewound → BlankTo job bufSize s.wb s.drive

structure BlockAt (job : ZeroJob) (bufSize size : ℕ) (s : Zeroing) : Prop where
  size_eq : size = min bufSize (job.diskSize - s.wb)
  wb_lt : s.wb < job.diskSize
  wb_dvd : bufSize ∣ s.wb
  readSize_eq : s.readSize = size

namespace BlockAt

variable (hjob : job.Sized bufSize) (h : BlockAt job bufSize size s)
include h

theorem size_le : size ≤ bufSize := by
  rw [h.size_eq]
  exact Nat.min_le_left _ _

include hjob

theorem sector_dvd : job.sectorSize ∣ size := by
  have hleft : job.sectorSize ∣ job.diskSize - s.wb :=
    Nat.dvd_sub hjob.disk_dvd (hjob.sector_dvd.trans h.wb_dvd)
  rw [h.size_eq]
  rcases Nat.le_total bufSize (job.diskSize - s.wb) with hle | hle
  · rw [Nat.min_eq_left hle]
    exact hjob.sector_dvd
  · rw [Nat.min_eq_right hle]
    exact hleft

theorem size_pos : 0 < size := by
  have hpos := hjob.pos
  have hlt := h.wb_lt
  have heq := h.size_eq
  omega

/-- Behind the block, however it was made blank. -/
theorem next {drive : Memory} {pos throttle : ℕ} {c : UInt8}
    (hpos : rewound → pos = s.wb + size)
    (hblank : rewound → BlankTo job bufSize s.wb s.drive) (hc : rewound → job.Blank c)
    (hbefore : rewound → ∀ i < s.wb, drive i = s.drive i)
    (hblock : rewound → ∀ j < size, drive (s.wb + j) = c) :
    Zeroing.At job bufSize rewound
      { s with drive, pos, throttle, wb := (s.wb + size) % 2 ^ 64 } := by
  have hlt := h.wb_lt
  have heq := h.size_eq
  have hdisk := hjob.diskSize_lt
  have hnext : (s.wb + size) % 2 ^ 64 = s.wb + size := Nat.mod_eq_of_lt (by omega)
  rw [hnext]
  refine ⟨hpos, ?_, fun hmore => ?_, fun hr => ?_⟩
  · show s.wb + size ≤ job.diskSize
    omega
  · have hmore : s.wb + size < job.diskSize := hmore
    have hsize : size = bufSize := by omega
    exact ⟨hsize ▸ (Nat.dvd_add_iff_left (dvd_refl size)).mp (hsize ▸ h.wb_dvd),
      h.readSize_eq.trans hsize⟩
  · exact (hblank hr).extend h.wb_dvd (hc hr) (hbefore hr) (hblock hr)

end BlockAt

/-- The size of a block: nothing is rounded. -/
theorem blockSizeAt_eq (hjob : job.Sized bufSize)
    (h : s.At job bufSize rewound) (hlt : s.wb < job.diskSize) :
    ∃ size, blockSizeAt job s = .ok size ∧
      BlockAt job bufSize size { s with readSize := size } := by
  obtain ⟨hdvd, hread⟩ := h.whole hlt
  have hblock : BlockAt job bufSize (min bufSize (job.diskSize - s.wb))
      { s with readSize := min bufSize (job.diskSize - s.wb) } :=
    ⟨rfl, hlt, hdvd, rfl⟩
  refine ⟨_, ?_, hblock⟩
  have hbuf := hjob.bufSize_lt
  have hdisk := hjob.diskSize_lt
  have hsize : (if job.diskSize < (s.wb + s.readSize) % 2 ^ 64 then
      wrapSub 64 job.diskSize s.wb % 2 ^ 32 else s.readSize) =
        min bufSize (job.diskSize - s.wb) := by
    rw [hread, wrapSub_of_le hlt.le (by omega)]
    split
    case isTrue => omega
    case isFalse => omega
  have hmod : min bufSize (job.diskSize - s.wb) % job.sectorSize = 0 :=
    Nat.mod_eq_zero_of_dvd (hblock.sector_dvd hjob)
  rw [blockSizeAt, hsize, hmod]
  rfl

theorem fillBlock_at (hjob : job.Sized bufSize) (attempt : ℕ → Attempt)
    (h : BlockAt job bufSize size s) (hpos : rewound → s.pos = s.wb)
    (hblank : rewound → BlankTo job bufSize s.wb s.drive) :
    ∃ r, fillBlock job bufSize size attempt s = .ok r ∧
      (r.1 = true → r.2.At job bufSize rewound) := by
  unfold fillBlock
  rw [if_pos h.size_le]
  cases hfill : fillWithRetry job size attempt writeRetries s with
  | mk written s' =>
      obtain ⟨hframe, hbefore, hfilled⟩ := fillWithRetry_fills attempt _ s hpos hfill
      cases written with
      | false => exact ⟨_, rfl, fun hfalse => nomatch hfalse⟩
      | true =>
          refine ⟨_, rfl, fun _ => ?_⟩
          show Zeroing.At job bufSize rewound { s' with wb := (s'.wb + size) % 2 ^ 64 }
          rw [hframe]
          exact h.next hjob (fun hr => (hfilled rfl hr).1) hblank
            (fun _ => job.fill_blank) hbefore fun hr => (hfilled rfl hr).2

/-- **A turn of the loop**, whether it reads, skips, writes or is throttled. -/
theorem zeroRound_at (hjob : job.Sized bufSize) (round : ZeroRound)
    (h : s.At job bufSize rewound) (hlt : s.wb < job.diskSize) :
    ∃ r, zeroRound job bufSize round s = .ok r ∧
      (r.1 = true → r.2.At job bufSize rewound) := by
  obtain ⟨size, hsize, hblock⟩ := blockSizeAt_eq hjob h hlt
  have hle := hblock.size_le
  rw [zeroRound, hsize, C.ok_bind]
  dsimp only
  split
  case isTrue =>
    exact fillBlock_at hjob round.attempt
      ⟨hblock.size_eq, hlt, hblock.wb_dvd, rfl⟩ h.pos_eq h.blank
  case isFalse hthrottle =>
    split
    case isFalse => exact fillBlock_at hjob round.attempt hblock h.pos_eq h.blank
    case isTrue hfast =>
      split
      case isTrue => exact ⟨_, rfl, fun hfalse => nomatch hfalse⟩
      case isFalse =>
        split
        case isTrue => exact ⟨_, rfl, fun hfalse => nomatch hfalse⟩
        case isFalse =>
          split
          case isTrue hempty =>
            -- the block is skipped, the read has moved the file pointer
            obtain ⟨c, hc, hbytes⟩ := isEmptyBlock_blank (hblock.size_pos hjob)
              (hjob.four_dvd.trans (hblock.sector_dvd hjob)) hempty
            refine ⟨_, rfl, fun _ => ?_⟩
            refine hblock.next hjob (fun hr => ?_) h.blank
              (fun _ => hc.imp_right fun hones => ⟨hfast, hones⟩)
              (fun _ _ _ => rfl) fun hr j hj => ?_
            · exact congrArg (· + size) (h.pos_eq hr)
            · rw [← h.pos_eq hr]
              exact hbytes j hj
          case isFalse =>
            split
            case isTrue => exact ⟨_, rfl, fun hfalse => nomatch hfalse⟩
            case isFalse =>
              exact fillBlock_at hjob round.attempt
                ⟨hblock.size_eq, hlt, hblock.wb_dvd, rfl⟩ (fun _ => rfl) h.blank

/-- The loop is left with `TRUE` only behind the last block. -/
theorem zeroLoop_blank (hjob : job.Sized bufSize) : ∀ (rounds : List ZeroRound)
    (s : Zeroing), s.At job bufSize rewound →
    ∃ r, zeroLoop job bufSize rounds s = .ok r ∧
      (r.1 = some true → rewound → BlankTo job bufSize job.diskSize r.2.drive)
  | rounds, s, h => by
      unfold zeroLoop
      split
      case isTrue hend =>
        refine ⟨_, rfl, fun _ hr => ?_⟩
        rw [← Nat.le_antisymm h.wb_le hend]
        exact h.blank hr
      case isFalse hlt =>
        match rounds with
        | [] => exact ⟨_, rfl, fun hnone => nomatch hnone⟩
        | round :: rounds =>
            obtain ⟨⟨zeroed, s'⟩, hround, hat⟩ := zeroRound_at hjob round h (not_le.mp hlt)
            dsimp only
            rw [hround, C.ok_bind]
            cases zeroed with
            | false => exact ⟨_, rfl, fun hfalse => nomatch hfalse⟩
            | true => exact zeroLoop_blank hjob rounds s' (hat rfl)

end

/-! ## The branch -/

section

variable {job : ZeroJob} {drive : Memory} {pos : ℕ} {rounds : List ZeroRound}

/-- What is allocated is aligned to a power of two. -/
theorem sized_of_mmMalloc (hdvd : job.sectorSize ∣ job.diskSize)
    (hsector : job.sectorSize < 2 ^ 32) (hdisk : job.diskSize < 2 ^ 63)
    (hlarge : ¬job.sectorSize < 512)
    (hmalloc : mmMalloc job.allocated job.sectorSize = true) :
    job.bufSize = .ok (ceilAlign ddBufferSize job.sectorSize) ∧
      job.Sized (ceilAlign ddBufferSize job.sectorSize) := by
  obtain ⟨-, hpow⟩ := Bool.and_eq_true_iff.mp hmalloc
  have hpow : 2 ^ job.sectorSize.log2 = job.sectorSize := beq_iff_eq.mp hpow
  generalize job.sectorSize.log2 = k at hpow
  have hpos : 0 < job.sectorSize := by omega
  have hk : k < 32 := (Nat.pow_lt_pow_iff_right (by decide)).mp (hpow ▸ hsector)
  have hfour : 2 ^ 2 ∣ 2 ^ k := by
    refine Nat.pow_dvd_pow 2 (Nat.le_of_lt_succ ?_)
    by_contra hsmall
    have hle : 2 ^ k ≤ 2 ^ 1 := Nat.pow_le_pow_right (by decide) (by omega)
    omega
  obtain ⟨hbuf, hbound⟩ := ceilAlignWord_buffer hk hpow.symm
  exact ⟨hbuf,
    { disk_dvd := hdvd
      sector_dvd := dvd_ceilAlign _ _
      pos := ceilAlign_pos hpos (by decide)
      four_dvd := hpow ▸ hfour
      bufSize_lt := by omega
      diskSize_lt := hdisk }⟩

/-- **The drive is zeroed.** If the branch returns `TRUE`, on a drive that was
rewound or did not have to be, every byte is zero; or, with `fast_zeroing`,
every block of the size of the buffer is all zeros or all ones. -/
theorem zeroDrive_zeroes (hdvd : job.sectorSize ∣ job.diskSize)
    (hsector : job.sectorSize < 2 ^ 32) (hdisk : job.diskSize < 2 ^ 63)
    (hrewound : job.rewound = true ∨ pos = 0) {s : Zeroing}
    (h : zeroDrive job drive pos rounds = .ok (some true, s)) :
    ∃ bufSize, job.bufSize = .ok bufSize ∧
      (job.fastZeroing = false → ∀ i < job.diskSize, s.drive i = 0) ∧
      (job.fastZeroing = true → ∀ k, ∃ c, (c = 0 ∨ c = 0xff) ∧
        ∀ i < job.diskSize, k * bufSize ≤ i → i < (k + 1) * bufSize →
          s.drive i = c) := by
  rw [zeroDrive] at h
  split at h
  case isTrue => exact absurd (congrArg Prod.fst (Except.ok.inj h)) (by simp)
  case isFalse hlarge =>
    cases hmalloc : mmMalloc job.allocated job.sectorSize with
    | false =>
        cases hbuf : job.bufSize with
        | error e => simp [hbuf] at h
        | ok bufSize => simp [hbuf, hmalloc] at h
    | true =>
        obtain ⟨hbuf, hjob⟩ := sized_of_mmMalloc hdvd hsector hdisk hlarge hmalloc
        generalize ceilAlign ddBufferSize job.sectorSize = bufSize at hbuf hjob
        have hstart : Zeroing.At job bufSize True
            { drive, pos := if job.rewound then 0 else pos, wb := 0
              readSize := bufSize, throttle := 0 } := by
          refine ⟨fun _ => ?_, Nat.zero_le _, fun _ => ⟨dvd_zero _, rfl⟩, fun _ k => ?_⟩
          · rcases hrewound with hr | hr
            · exact if_pos hr
            · exact (ite_eq_right_iff.mpr fun _ => hr.symm).trans hr
          · exact ⟨0, .inl rfl, fun i hi => absurd hi (Nat.not_lt_zero i)⟩
        obtain ⟨r, hloop, hblank⟩ := zeroLoop_blank hjob rounds _ hstart
        simp only [hbuf, C.ok_bind, hmalloc, Bool.true_eq_false, if_false, hloop,
          Except.ok.injEq] at h
        subst h
        have hblank : BlankTo job bufSize job.diskSize s.drive := hblank rfl trivial
        refine ⟨bufSize, hbuf, fun hslow i hi => ?_, fun _ k => ?_⟩
        · obtain ⟨c, hc, hbytes⟩ := hblank (i / bufSize)
          have hzero : c = 0 := hc.resolve_right fun hfast => by simp [hslow] at hfast
          rw [← hzero]
          exact hbytes i hi (Nat.div_mul_le_self i bufSize)
            (Nat.lt_mul_of_div_lt (Nat.lt_succ_self _) hjob.pos)
        · obtain ⟨c, hc, hbytes⟩ := hblank k
          exact ⟨c, hc.imp_right And.right, hbytes⟩

def twoSectors : ZeroJob where
  diskSize := 1024
  sectorSize := 512
  fastZeroing := true
  rewound := true
  allocated := true

/-- The block is read, and written at the second try. -/
def secondTry : ZeroRound where
  cancelled := false
  read := true
  repositioned := true
  attempt := fun left =>
    { cancelled := false, succeeded := true
      written := if left = 3 then 1 else 1024
      debris := fun _ => 0xff, pos := 1, repositioned := true }

theorem zeroDrive_zeroes_twoSectors : ∃ s bufSize,
    zeroDrive twoSectors (fun i => if i = 0 then 7 else 0) 512 [secondTry]
      = .ok (some true, s) ∧
    ∀ k, ∃ c, (c = 0 ∨ c = 0xff) ∧
      ∀ i < 1024, k * bufSize ≤ i → i < (k + 1) * bufSize → s.drive i = c := by
  have hrun : (zeroDrive twoSectors (fun i => if i = 0 then 7 else 0) 512
      [secondTry]).map Prod.fst = .ok (some true) := by decide +kernel
  cases hs : zeroDrive twoSectors (fun i => if i = 0 then 7 else 0) 512
      [secondTry] with
  | error e =>
      rw [hs] at hrun
      cases hrun
  | ok r =>
      obtain ⟨result, s⟩ := r
      rw [hs] at hrun
      cases hrun
      obtain ⟨bufSize, -, -, hblank⟩ := zeroDrive_zeroes (by decide) (by decide)
        (by decide) (.inl rfl) hs
      exact ⟨s, bufSize, rfl, hblank rfl⟩

def bufferAndSector : ZeroJob where
  diskSize := ddBufferSize + 512
  sectorSize := 512
  fastZeroing := false
  rewound := false
  allocated := true

/-- The first try writes so much; the second one, back in place, a sector. -/
def nextTry (first : ℕ) : ZeroRound where
  cancelled := false
  read := true
  repositioned := true
  attempt := fun left =>
    { cancelled := false, succeeded := left = 2 || 0 < first
      written := if left = 3 then first else 512
      debris := fun _ => 0, pos := ddBufferSize + 512, repositioned := true }

/-- A drive that could not be rewound only gets a warning. With the file
pointer a sector behind the start the first block is written a sector too far,
the next one fails at the end of the drive, and is written at the second try:
the first sector is never written. -/
theorem zeroDrive_unrewound : ¬∀ (job : ZeroJob) (drive : Memory) (pos : ℕ)
    (rounds : List ZeroRound) (s : Zeroing), job.sectorSize ∣ job.diskSize →
    job.sectorSize < 2 ^ 32 → job.diskSize < 2 ^ 63 →
    zeroDrive job drive pos rounds = .ok (some true, s) →
    job.fastZeroing = false → ∀ i < job.diskSize, s.drive i = 0 := by
  intro h
  have hrun : (zeroDrive bufferAndSector (fun _ => 1) 512
      [nextTry ddBufferSize, nextTry 0]).map (fun r => (r.1, r.2.drive 0)) =
        .ok (some true, 1) := by decide +kernel
  cases hs : zeroDrive bufferAndSector (fun _ => 1) 512
      [nextTry ddBufferSize, nextTry 0] with
  | error e =>
      rw [hs] at hrun
      cases hrun
  | ok r =>
      obtain ⟨result, s⟩ := r
      rw [hs] at hrun
      simp only [Except.map, Except.ok.injEq, Prod.mk.injEq] at hrun
      obtain ⟨rfl, hone⟩ := hrun
      have hzero := h _ _ _ _ _ (by decide) (by decide) (by decide) hs rfl 0 (by decide)
      rw [hone] at hzero
      exact absurd hzero (by decide)

end

end Nawam
