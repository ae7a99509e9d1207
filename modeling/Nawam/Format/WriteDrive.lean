import Nawam.Base.Align
import Nawam.Base.Ensures
import Nawam.Base.Memory
import Mathlib.Logic.Function.Basic

/-!
# Writing an image to a drive

The branch of `WriteDrive` in `format.c` that copies an uncompressed image,
over the asynchronous reads of `winio.h`. Reading runs one chunk ahead of
writing: while a chunk is written from one of the two buffers, the next one
is read into the other. Three parties keep an offset of their own, the loop
(`wb`), the file pointer of the drive, and the `Overlapped.Offset` of the
image, and `Copying` says how they agree at the head of the loop.

What the system answers is the script of a run: a `Round` for every turn of
the loop, in it an `Attempt` for every `WriteFile`. A run whose script ends
before the loop does is a prefix of a run; what is shown of all scripts thus
holds at every moment.
-/

namespace Nawam

/-! ## Source -/

structure ImageJob where
  /-- `SelectedDrive` -/
  diskSize : ℕ
  sectorSize : ℕ
  /-- what is read through `hSourceImage` -/
  image : List UInt8
  /-- the image is a VHD, which is mounted to be read -/
  vhd : Bool
  /-- the `SetFilePointerEx` to the start of the drive went through -/
  rewound : Bool
  /-- so did what comes before the first read -/
  mounted : Bool
  opened : Bool
  allocated : Bool

/-- How `ReadFile` returns: with the data, with `ERROR_IO_PENDING`, or with
another error. -/
inductive ReadStart where
  | completed
  | pending
  | failed
  | endOfFile
deriving DecidableEq, Repr

/-- A call of `ReadFileAsync`, and what is in its buffer until the data are. -/
structure Launch where
  start : ReadStart
  meanwhile : Memory

structure Attempt where
  /-- the user has cancelled before it -/
  cancelled : Bool
  /-- what it returns, and the `write_size` it reports -/
  succeeded : Bool
  written : ℕ
  /-- where it did not write all, what it left of the region, and the file
  pointer it left -/
  debris : Memory
  pos : ℕ
  /-- the `SetFilePointerEx` after it went through -/
  repositioned : Bool

/-- What the system answers in a turn of the loop. -/
structure Round where
  /-- `WaitForSingleObject` returned `WAIT_OBJECT_0` -/
  signalled : Bool
  /-- `GetOverlappedResultEx` succeeded, or failed at the end of the image -/
  transferred : Bool
  launch : Launch
  attempt : ℕ → Attempt

/-- The drive, the variables of the branch, and the `ASYNC_FD` of the image. -/
structure DriveCopy where
  drive : Memory
  /-- the file pointer of the drive -/
  pos : ℕ
  buffer : Memory
  readBufnum : ℕ
  procBufnum : ℕ
  readSize : ℕ → ℕ
  wb : ℕ
  /-- `iStatus` -/
  status : ReadStart
  offset : ℕ
  offsetUpdated : Bool
  /-- the buffer and the size of the read launched last -/
  target : ℕ
  request : ℕ
  /-- it has not been waited for -/
  inFlight : Bool
  /-- the calls of `WriteFile`: the buffer handed over, and the buffer being
  read into -/
  calls : List (ℕ × Option ℕ)

abbrev numBuffers : ℕ := 2
abbrev writeRetries : ℕ := 4
abbrev ddBufferSize : ℕ := 32 * 1048576

namespace ImageJob

def targetSize (job : ImageJob) : ℕ :=
  if job.vhd then job.image.length else min job.diskSize job.image.length

def bufSize (job : ImageJob) : C ℕ := ceilAlignWord 32 ddBufferSize job.sectorSize

/-- The image as the memory it is read from. -/
def source (job : ImageJob) : Memory := fun i => job.image.getD i 0

end ImageJob

/-- `ReadFileAsync` into the reading buffer, `bufSize * numBuffers` bytes
being allocated. -/
def readFileAsync (bufSize size : ℕ) (launch : Launch) (s : DriveCopy) :
    C DriveCopy := do
  if s.readBufnum * bufSize + size ≤ bufSize * numBuffers % 2 ^ 32 then
    assertThat (launch.start ≠ .endOfFile)
    return { s with
      buffer := blit s.buffer (s.readBufnum * bufSize) launch.meanwhile 0 size
      status := launch.start
      offsetUpdated := false
      target := s.readBufnum
      request := size
      inFlight := true }
  else .error .outOfBounds

def waitFileAsync (round : Round) (s : DriveCopy) : Bool :=
  s.status = .completed || round.signalled

/-- `GetSizeAsync`. A read returns what is left of the image, which is
nothing from its end on. -/
def getSizeAsync (job : ImageJob) (bufSize : ℕ) (round : Round)
    (s : DriveCopy) : Bool × DriveCopy :=
  if s.status = .failed then
    (false, { s with readSize := Function.update s.readSize s.readBufnum 0 })
  else if s.offsetUpdated then (false, s)
  else if round.transferred = false then
    (false, { s with offsetUpdated := true })
  else
    let size := min s.request (job.image.length - s.offset)
    (true, { s with
      buffer := blit s.buffer (s.target * bufSize) job.source s.offset size
      readSize := Function.update s.readSize s.readBufnum size
      offset := s.offset + size
      offsetUpdated := true
      inFlight := false })

/-- The size read, rounded up to sectors. -/
def alignReadSize (job : ImageJob) (bufSize size : ℕ) : C ℕ := do
  if size % job.sectorSize ≠ 0 then
    let aligned ← ceilAlignWord 32 size job.sectorSize
    assertThat (aligned ≤ bufSize)
    return aligned
  else return size

/-- `WriteFile` of `size` bytes from the processing buffer. -/
def writeFile (bufSize size : ℕ) (attempt : Attempt) (s : DriveCopy) :
    C (Bool × DriveCopy) := do
  let s := { s with
    calls := s.calls ++ [(s.procBufnum, if s.inFlight then some s.target else none)] }
  if s.procBufnum * bufSize + size ≤ bufSize * numBuffers % 2 ^ 32 then
    if attempt.succeeded ∧ attempt.written = size then
      return (true, { s with
        drive := blit s.drive s.pos s.buffer (s.procBufnum * bufSize) size
        pos := s.pos + size })
    else
      return (false, { s with
        drive := blit s.drive s.pos attempt.debris 0 size
        pos := attempt.pos })
  else .error .outOfBounds

/-- The loop around `WriteFile` with so many tries left; `false` is the jump
to `out`. -/
def writeWithRetry (bufSize size : ℕ) (attempt : ℕ → Attempt) :
    ℕ → DriveCopy → C (Bool × DriveCopy)
  | 0, s => return (false, s)
  | left + 1, s =>
      if (attempt left).cancelled then return (false, s)
      else do
        let (written, s) ← writeFile bufSize size (attempt left) s
        if written then return (true, s)
        else if left = 0 then return (false, s)
        else if (attempt left).repositioned then
          writeWithRetry bufSize size attempt left { s with pos := s.wb }
        else return (false, s)

def copyRound (job : ImageJob) (bufSize : ℕ) (round : Round) (s : DriveCopy) :
    C (Bool × DriveCopy) := do
  if waitFileAsync round s = false then return (false, s)
  else
    let (got, s) := getSizeAsync job bufSize round s
    if got = false then return (false, s)
    else
      let size ← alignReadSize job bufSize (s.readSize s.readBufnum)
      let s := { s with
        readSize := Function.update s.readSize s.readBufnum size
        procBufnum := s.readBufnum
        readBufnum := (s.readBufnum + 1) % numBuffers }
      let s ← readFileAsync bufSize
        (min bufSize (wrapSub 64 job.targetSize ((s.wb + size) % 2 ^ 64)))
        round.launch s
      let (written, s) ← writeWithRetry bufSize size round.attempt writeRetries s
      if written then return (true, { s with wb := (s.wb + size) % 2 ^ 64 })
      else return (false, s)

/-- The loop: `some` of what the branch returns, `none` where the script ends
first. -/
def copyLoop (job : ImageJob) (bufSize : ℕ) :
    List Round → DriveCopy → C (Option Bool × DriveCopy)
  | rounds, s =>
      if s.readSize s.procBufnum = 0 then return (some true, s)
      else if job.targetSize ≤ s.wb then return (some true, s)
      else
        match rounds with
        | [] => return (none, s)
        | round :: rounds => do
            let (written, s) ← copyRound job bufSize round s
            if written then copyLoop job bufSize rounds s
            else return (some false, s)

/-- `WriteDrive` for an uncompressed image, on a drive whose file pointer is at
`pos`. -/
def writeImage (job : ImageJob) (drive : Memory) (pos : ℕ) (buffer : Memory)
    (launch : Launch) (rounds : List Round) : C (Option Bool × DriveCopy) := do
  let s : DriveCopy :=
    { drive := drive, pos := pos, buffer := buffer, readBufnum := 0
      procBufnum := 1, readSize := fun _ => 0, wb := 0, status := .failed
      offset := 0, offsetUpdated := false, target := 0, request := 0
      inFlight := false, calls := [] }
  if job.sectorSize < 512 then return (some false, s)
  else
    -- where it cannot be rewound there is only a warning
    let s := { s with pos := if job.rewound then 0 else pos }
    if job.vhd ∧ (job.mounted = false ∨ job.image = []) then
      return (some false, s)
    else if job.opened = false then return (some false, s)
    else
      let bufSize ← job.bufSize
      if job.allocated = false then return (some false, s)
      else
        let s ← readFileAsync bufSize (min bufSize job.targetSize) launch s
        copyLoop job bufSize rounds
          { s with readSize := Function.update s.readSize s.procBufnum 1 }

/-! ## What a call does -/

/-- No call of `WriteFile` was handed the buffer that was being read into. -/
def DriveCopy.Apart (s : DriveCopy) : Prop :=
  ∀ call ∈ s.calls, call.2 ≠ some call.1

/-- `s'` is `s` but for what a call of `WriteFile` changes. -/
structure DriveCopy.Writes (s s' : DriveCopy) : Prop where
  frame : s' = { s with drive := s'.drive, pos := s'.pos, calls := s'.calls }
  apart : s.Apart → s'.Apart

namespace DriveCopy.Writes

variable {s s' s'' : DriveCopy}

theorem trans (h : s.Writes s') (h' : s'.Writes s'') : s.Writes s'' where
  frame := by
    rw [h'.frame, h.frame]
  apart := fun hs => h'.apart (h.apart hs)

theorem buffer_eq (h : s.Writes s') : s'.buffer = s.buffer := by
  rw [h.frame]

theorem procBufnum_eq (h : s.Writes s') : s'.procBufnum = s.procBufnum := by
  rw [h.frame]

theorem wb_eq (h : s.Writes s') : s'.wb = s.wb := by
  rw [h.frame]

theorem inFlight_eq (h : s.Writes s') : s'.inFlight = s.inFlight := by
  rw [h.frame]

theorem target_eq (h : s.Writes s') : s'.target = s.target := by
  rw [h.frame]

/-- Moving the file pointer is part of it. -/
theorem reposition (h : s.Writes s') (pos : ℕ) :
    s.Writes { s' with pos := pos } where
  frame := by rw [h.frame]
  apart := h.apart

end DriveCopy.Writes

section

variable {bufSize size : ℕ} {s : DriveCopy}

/-- A call of `WriteFile`: what it writes starts at the file pointer, and all
of it is there if the call says so. -/
theorem writeFile_ensures (attempt : Attempt)
    (hread : s.inFlight = true → s.target ≠ s.procBufnum) :
    Ensures (writeFile bufSize size attempt s) fun r =>
      s.Writes r.2 ∧
      (∀ i < s.pos, r.2.drive i = s.drive i) ∧
      (r.1 = true → r.2.pos = s.pos + size ∧
        ∀ j < size, r.2.drive (s.pos + j)
          = s.buffer (s.procBufnum * bufSize + j)) := by
  have happart : s.Apart →
      ({ s with calls := s.calls
          ++ [(s.procBufnum, if s.inFlight then some s.target else none)] } :
        DriveCopy).Apart := by
    intro hs call hcall
    rcases List.mem_append.mp hcall with hcall | hcall
    · exact hs call hcall
    · rw [List.mem_singleton.mp hcall]
      split
      case isTrue hin => simpa using hread hin
      case isFalse => simp
  apply Ensures.ite
  · intro _
    apply Ensures.ite
    · intro _
      apply Ensures.pure
      refine ⟨⟨rfl, happart⟩, fun i hi => blit_outside (.inl hi), fun _ => ?_⟩
      exact ⟨rfl, fun j hj => blit_inside hj⟩
    · intro _
      apply Ensures.pure
      refine ⟨⟨rfl, happart⟩, fun i hi => blit_outside (.inl hi), ?_⟩
      rintro ⟨⟩
  · exact fun _ => Ensures.error

/-- However many tries it takes, the data end up at `wb`, where every try
starts, and nothing before it changes. -/
theorem writeWithRetry_ensures (attempt : ℕ → Attempt) {rewound : Prop} :
    ∀ (left : ℕ) (s : DriveCopy),
      (s.inFlight = true → s.target ≠ s.procBufnum) →
      (rewound → s.pos = s.wb) →
      Ensures (writeWithRetry bufSize size attempt left s) fun r =>
        s.Writes r.2 ∧
        (rewound → ∀ i < s.wb, r.2.drive i = s.drive i) ∧
        (r.1 = true → rewound → r.2.pos = s.wb + size ∧
          ∀ j < size, r.2.drive (s.wb + j)
            = s.buffer (s.procBufnum * bufSize + j))
  | 0, s, _, _ => by
      apply Ensures.pure
      refine ⟨⟨rfl, id⟩, fun _ _ _ => rfl, ?_⟩
      rintro ⟨⟩
  | left + 1, s, hread, hpos => by
      apply Ensures.ite
      · intro _
        apply Ensures.pure
        refine ⟨⟨rfl, id⟩, fun _ _ _ => rfl, ?_⟩
        rintro ⟨⟩
      intro _
      refine Ensures.bind (writeFile_ensures (attempt left) hread) ?_
      rintro ⟨written, s₁⟩ ⟨hwrites, hbefore, hafter⟩
      dsimp only at hwrites hbefore hafter ⊢
      have hbefore' : rewound → ∀ i < s.wb, s₁.drive i = s.drive i :=
        fun hr i hi => hbefore i (hpos hr ▸ hi)
      apply Ensures.ite
      · intro hwritten
        apply Ensures.pure
        refine ⟨hwrites, hbefore', fun _ hr => ?_⟩
        rw [← hpos hr]
        exact hafter hwritten
      intro _
      apply Ensures.ite
      · intro _
        apply Ensures.pure
        refine ⟨hwrites, hbefore', ?_⟩
        rintro ⟨⟩
      intro _
      apply Ensures.ite
      · intro _
        have hread' : s₁.inFlight = true → s₁.target ≠ s₁.procBufnum := by
          rw [hwrites.inFlight_eq, hwrites.target_eq, hwrites.procBufnum_eq]
          exact hread
        refine Ensures.mono (writeWithRetry_ensures attempt left
          { s₁ with pos := s₁.wb } hread' fun (_ : rewound) => rfl) ?_
        rintro ⟨written', s₂⟩ ⟨hwrites₂, hbefore₂, hafter₂⟩
        dsimp only at hwrites₂ hbefore₂ hafter₂ ⊢
        rw [hwrites.wb_eq] at hbefore₂
        rw [hwrites.wb_eq, hwrites.buffer_eq, hwrites.procBufnum_eq] at hafter₂
        refine ⟨(hwrites.reposition _).trans hwrites₂, fun hr i hi => ?_, hafter₂⟩
        rw [hbefore₂ hr i hi, hbefore' hr i hi]
      · intro _
        apply Ensures.pure
        refine ⟨hwrites, hbefore', ?_⟩
        rintro ⟨⟩

end

/-! ## The sizes of the chunks -/

structure ImageJob.Sized (job : ImageJob) : Prop where
  sectorSize : ∃ k < 32, 9 ≤ k ∧ job.sectorSize = 2 ^ k
  diskSize_lt : job.diskSize < 2 ^ 63
  image_lt : job.image.length < 2 ^ 63

/-- The size of a buffer of whole sectors fits its type. -/
theorem ceilAlignWord_buffer {sectorSize k : ℕ} (hk : k < 32)
    (hsector : sectorSize = 2 ^ k) :
    ceilAlignWord 32 ddBufferSize sectorSize = .ok (ceilAlign ddBufferSize sectorSize) ∧
      ceilAlign ddBufferSize sectorSize + sectorSize ≤ 2 ^ 32 := by
  have hpos : 0 < sectorSize := hsector ▸ Nat.two_pow_pos k
  have hle : sectorSize ≤ 2 ^ 31 :=
    hsector ▸ Nat.pow_le_pow_right (by decide) (by omega)
  have hdd : ddBufferSize = 2 ^ 25 := rfl
  refine ⟨ceilAlignWord_exact hpos (by omega), ?_⟩
  rcases Nat.le_total k 25 with hsmall | hlarge
  · have hdvd : sectorSize ∣ ddBufferSize := by
      rw [hsector, hdd]
      exact Nat.pow_dvd_pow 2 hsmall
    have hsize : sectorSize ≤ ddBufferSize := Nat.le_of_dvd (by decide) hdvd
    rw [ceilAlign_of_dvd hpos hdvd]
    omega
  · have hsize : ddBufferSize ≤ sectorSize := by
      rw [hsector, hdd]
      exact Nat.pow_le_pow_right (by decide) hlarge
    have hceil : ceilAlign ddBufferSize sectorSize ≤ sectorSize :=
      ceilAlign_le hpos (dvd_refl _) hsize
    omega

/-- A buffer holds whole sectors, and sizes up to it can be rounded. -/
structure ImageJob.Chunk (job : ImageJob) (bufSize : ℕ) : Prop where
  sector_pos : 0 < job.sectorSize
  sector_dvd : job.sectorSize ∣ bufSize
  pos : 0 < bufSize
  add_sector_le : bufSize + job.sectorSize ≤ 2 ^ 32
  target_lt : job.targetSize < 2 ^ 63

namespace ImageJob

variable {job : ImageJob} {bufSize : ℕ}

theorem targetSize_le (job : ImageJob) : job.targetSize ≤ job.image.length := by
  unfold targetSize
  split
  case isTrue => exact le_rfl
  case isFalse => exact Nat.min_le_right _ _

theorem min_le_targetSize (job : ImageJob) :
    min job.diskSize job.image.length ≤ job.targetSize := by
  unfold targetSize
  split
  case isTrue => exact Nat.min_le_right _ _
  case isFalse => exact le_rfl

/-- The buffer is 32 MB large, or one sector where that is more. -/
theorem Sized.chunk (h : job.Sized) :
    job.bufSize = .ok (ceilAlign ddBufferSize job.sectorSize) ∧
      job.Chunk (ceilAlign ddBufferSize job.sectorSize) := by
  obtain ⟨k, hk, -, hsector⟩ := h.sectorSize
  have hpos : 0 < job.sectorSize := hsector ▸ Nat.two_pow_pos k
  obtain ⟨hbuf, hbound⟩ := ceilAlignWord_buffer hk hsector
  exact ⟨hbuf,
    { sector_pos := hpos
      sector_dvd := dvd_ceilAlign _ _
      pos := ceilAlign_pos hpos (by decide)
      add_sector_le := hbound
      target_lt := lt_of_le_of_lt job.targetSize_le h.image_lt }⟩

end ImageJob

theorem alignReadSize_ok {job : ImageJob} {bufSize size : ℕ}
    (hc : job.Chunk bufSize) (hle : size ≤ bufSize) :
    alignReadSize job bufSize size = .ok (ceilAlign size job.sectorSize) := by
  have hbuf := hc.add_sector_le
  have hceil : ceilAlign size job.sectorSize ≤ bufSize :=
    ceilAlign_le hc.sector_pos hc.sector_dvd hle
  unfold alignReadSize
  split
  case isTrue =>
      rw [ceilAlignWord_exact hc.sector_pos (by omega), C.ok_bind,
        decide_eq_true hceil]
      rfl
  case isFalse hmod =>
      rw [ceilAlign_of_dvd hc.sector_pos (Nat.dvd_of_mod_eq_zero (not_not.mp hmod))]
      rfl

theorem alignReadSize_ensures {job : ImageJob} {bufSize size : ℕ}
    (hc : job.Chunk bufSize) (hle : size ≤ bufSize) :
    Ensures (alignReadSize job bufSize size) fun aligned =>
      aligned = ceilAlign size job.sectorSize := by
  rw [alignReadSize_ok hc hle]
  exact .ok rfl

/-! ## A turn of the loop -/

/-- The head of the loop: the image is being read from where the drive is
written, and up to there the drive is the image. -/
structure Copying (job : ImageJob) (bufSize : ℕ) (rewound : Prop)
    (s : DriveCopy) : Prop where
  readBufnum_lt : s.readBufnum < numBuffers
  target_eq : s.target = s.readBufnum
  size_pos : 0 < s.readSize s.procBufnum
  reading : s.wb < job.targetSize → s.offset = s.wb ∧
    s.request = min bufSize (job.targetSize - s.wb)
  pos_eq : rewound → s.pos = s.wb
  drive_eq : rewound → ∀ i < s.wb, i < job.targetSize → s.drive i = job.source i
  apart : s.Apart

section

variable {job : ImageJob} {bufSize : ℕ} {rewound : Prop} {s : DriveCopy}

theorem getSizeAsync_apart (round : Round) (h : s.Apart) :
    (getSizeAsync job bufSize round s).2.Apart := by
  unfold getSizeAsync
  split
  · exact h
  · split
    · exact h
    · split <;> exact h

/-- The read that was launched: all that was asked for is there. -/
theorem getSizeAsync_eq {round : Round} {s' : DriveCopy} {size : ℕ}
    (hsize : min s.request (job.image.length - s.offset) = size)
    (h : getSizeAsync job bufSize round s = (true, s')) :
    s' = { s with
      buffer := blit s.buffer (s.target * bufSize) job.source s.offset size
      readSize := Function.update s.readSize s.readBufnum size
      offset := s.offset + size
      offsetUpdated := true
      inFlight := false } := by
  unfold getSizeAsync at h
  split at h
  · cases h
  · split at h
    · cases h
    · split at h
      · cases h
      · subst hsize
        exact (congrArg Prod.snd h).symm

/-- A launch: the processing buffer is left alone. -/
theorem readFileAsync_ensures {size : ℕ} (launch : Launch)
    (hread : s.readBufnum < numBuffers) (hproc : s.procBufnum < numBuffers)
    (hne : s.readBufnum ≠ s.procBufnum) (hsize : size ≤ bufSize) :
    Ensures (readFileAsync bufSize size launch s) fun s' =>
      s' = { s with
        buffer := s'.buffer
        status := s'.status
        offsetUpdated := false
        target := s.readBufnum
        request := size
        inFlight := true } ∧
      ∀ j < bufSize, s'.buffer (s.procBufnum * bufSize + j)
        = s.buffer (s.procBufnum * bufSize + j) := by
  apply Ensures.ite
  · intro _
    refine Ensures.assertThat fun _ => Ensures.pure ⟨rfl, fun j hj => ?_⟩
    apply blit_outside
    have hnum : numBuffers = 2 := rfl
    -- one of the two buffers is the first, the other the second
    obtain ⟨hr, hp⟩ | ⟨hr, hp⟩ : s.readBufnum = 0 ∧ s.procBufnum = 1 ∨
        s.readBufnum = 1 ∧ s.procBufnum = 0 := by omega
    · rw [hr, hp]
      omega
    · rw [hr, hp]
      omega
  · exact fun _ => Ensures.error

/-- A turn of the loop keeps the loop's invariant. Where the next chunk starts
within the image this one was a whole buffer, so nothing was rounded. -/
theorem copyRound_ensures (round : Round) (hc : job.Chunk bufSize)
    (h : Copying job bufSize rewound s) (hwb : s.wb < job.targetSize) :
    Ensures (copyRound job bufSize round s) fun r =>
      r.2.Apart ∧ (r.1 = true → Copying job bufSize rewound r.2) := by
  apply Ensures.ite
  · intro _
    exact Ensures.pure ⟨h.apart, fun hfalse => nomatch hfalse⟩
  intro _
  have happart : (getSizeAsync job bufSize round s).2.Apart :=
    getSizeAsync_apart round h.apart
  obtain ⟨hoffset, hrequest⟩ := h.reading hwb
  have htarget : job.targetSize ≤ job.image.length := job.targetSize_le
  obtain ⟨size, hsize⟩ : ∃ size, min bufSize (job.targetSize - s.wb) = size :=
    ⟨_, rfl⟩
  have hgot : min s.request (job.image.length - s.offset) = size := by omega
  cases hget : getSizeAsync job bufSize round s with
  | mk got s₁ =>
  rw [hget] at happart
  apply Ensures.ite
  · intro _
    exact Ensures.pure ⟨happart, fun hfalse => nomatch hfalse⟩
  intro hgot'
  cases (Bool.not_eq_false got).mp hgot'
  have hs₁ := getSizeAsync_eq hgot hget
  have hread : s₁.readSize s₁.readBufnum = size := by
    rw [hs₁]
    exact Function.update_self ..
  rw [hread]
  refine Ensures.bind (alignReadSize_ensures hc (by omega)) fun aligned ha => ?_
  have haligned : size ≤ aligned := ha ▸ le_ceilAlign _ hc.sector_pos
  have hle : aligned ≤ bufSize :=
    ha ▸ ceilAlign_le hc.sector_pos hc.sector_dvd (by omega)
  have hlt : s.readBufnum < 2 := h.readBufnum_lt
  have hread₁ : s₁.readBufnum = s.readBufnum := by rw [hs₁]
  rw [hread₁]
  refine Ensures.bind (readFileAsync_ensures round.launch
    (Nat.mod_lt _ (by decide)) hlt
    (show (s.readBufnum + 1) % 2 ≠ s.readBufnum by omega)
    (Nat.min_le_left _ _)) ?_
  rintro s₃ ⟨hs₃, hbuffer⟩
  have hwb₃ : s₃.wb = s.wb := by rw [hs₃, hs₁]
  have hproc₃ : s₃.procBufnum = s.readBufnum := by rw [hs₃]
  have htarget₃ : s₃.target = (s.readBufnum + 1) % 2 := by rw [hs₃]
  -- the chunk is in the processing buffer, and stays there
  have hchunk : ∀ j < size, s₃.buffer (s₃.procBufnum * bufSize + j)
      = job.source (s.wb + j) := by
    intro j hj
    rw [hproc₃, hbuffer j (by omega), hs₁]
    dsimp only
    rw [← h.target_eq, ← hoffset]
    exact blit_inside hj
  refine Ensures.bind (writeWithRetry_ensures round.attempt writeRetries s₃
    (fun _ => by rw [htarget₃, hproc₃]; omega)
    (fun hr : rewound => by rw [hs₃, hs₁]; exact h.pos_eq hr)) ?_
  rintro ⟨written, s₄⟩ ⟨hwrites, hbefore, hafter⟩
  dsimp only at hwrites hbefore hafter ⊢
  have happart₄ : s₄.Apart := by
    apply hwrites.apart
    rw [hs₃]
    exact happart
  apply Ensures.ite
  · intro hwritten
    have hbuf : bufSize < 2 ^ 32 := by
      have hadd := hc.add_sector_le
      have hpos := hc.sector_pos
      omega
    have hnext : (s.wb + aligned) % 2 ^ 64 = s.wb + aligned := by
      have ht := hc.target_lt
      exact Nat.mod_eq_of_lt (by omega)
    have hsize_pos : 0 < size := by
      have hpos := hc.pos
      omega
    refine Ensures.pure ⟨happart₄, fun _ => ?_⟩
    exact
      { readBufnum_lt := by
          rw [hwrites.frame, hs₃]
          exact Nat.mod_lt _ (by decide)
        target_eq := by
          rw [hwrites.frame, hs₃]
        size_pos := by
          rw [hwrites.frame, hs₃]
          dsimp only
          rw [Function.update_self]
          omega
        reading := by
          rw [hwrites.frame, hs₃, hs₁]
          dsimp only
          rw [hnext]
          intro hin
          have heq : size = aligned := by omega
          refine ⟨by rw [hoffset, heq], ?_⟩
          have ht := hc.target_lt
          rw [wrapSub_of_le hin.le (by omega)]
        pos_eq := fun hr => by
          dsimp only
          rw [(hafter hwritten hr).1, hwb₃, hwrites.wb_eq, hwb₃, hnext]
        drive_eq := fun hr i hi hit => by
          dsimp only at hi ⊢
          rw [hwrites.wb_eq, hwb₃, hnext] at hi
          rw [hwb₃] at hbefore hafter
          rcases Nat.lt_or_ge i s.wb with hold | hnew
          · rw [hbefore hr i hold, hs₃, hs₁]
            exact h.drive_eq hr i hold hit
          · obtain ⟨j, rfl⟩ := Nat.exists_eq_add_of_le hnew
            rw [(hafter hwritten hr).2 j (by omega)]
            exact hchunk j (by omega)
        apart := happart₄ }
  · intro _
    exact Ensures.pure ⟨happart₄, fun hfalse => nomatch hfalse⟩

/-- The loop is only left with `TRUE` once all of the image is written: the
size of the chunk it looks at first is not 0. -/
theorem copyLoop_ensures (hc : job.Chunk bufSize) :
    ∀ (rounds : List Round) (s : DriveCopy), Copying job bufSize rewound s →
      Ensures (copyLoop job bufSize rounds s) fun r =>
        r.2.Apart ∧ (r.1 = some true → rewound →
          ∀ i < job.targetSize, r.2.drive i = job.source i)
  | rounds, s, h => by
      unfold copyLoop
      apply Ensures.ite
      · intro hzero
        exact absurd hzero (Nat.pos_iff_ne_zero.mp h.size_pos)
      intro _
      apply Ensures.ite
      · intro hend
        refine Ensures.pure ⟨h.apart, fun _ hr i hi => ?_⟩
        exact h.drive_eq hr i (lt_of_lt_of_le hi hend) hi
      intro hwb
      match rounds with
      | [] => exact Ensures.pure ⟨h.apart, fun hnone => nomatch hnone⟩
      | round :: rounds =>
          refine Ensures.bind (copyRound_ensures round hc h (not_le.mp hwb)) ?_
          rintro ⟨written, s'⟩ ⟨happart, hcopying⟩
          apply Ensures.ite
          · intro hwritten
            exact copyLoop_ensures hc rounds s' (hcopying hwritten)
          · intro _
            exact Ensures.pure ⟨happart, fun hfalse => nomatch hfalse⟩

end

/-! ## The branch -/

section

variable {job : ImageJob} {drive buffer : Memory} {pos : ℕ} {launch : Launch}
  {rounds : List Round} {result : Option Bool} {s : DriveCopy}

/-- What the job needs to come to its first read. -/
structure ImageJob.Starts (job : ImageJob) : Prop where
  mounted : job.vhd = true → job.mounted = true ∧ job.image ≠ []
  opened : job.opened = true
  allocated : job.allocated = true

def DriveCopy.atStart (drive : Memory) (pos : ℕ) (buffer : Memory) : DriveCopy :=
  { drive := drive, pos := pos, buffer := buffer, readBufnum := 0
    procBufnum := 1, readSize := fun _ => 0, wb := 0, status := .failed
    offset := 0, offsetUpdated := false, target := 0, request := 0
    inFlight := false, calls := [] }

/-- The first read leads to the head of the loop. -/
theorem copying_first {bufSize : ℕ} (rewound : Prop) (launch : Launch)
    (hpos : rewound → pos = 0) :
    Ensures (readFileAsync bufSize (min bufSize job.targetSize) launch
        (.atStart drive pos buffer)) fun s =>
      Copying job bufSize rewound
        { s with readSize := Function.update s.readSize s.procBufnum 1 } ∧
      s.wb = 0 ∧ s.offset + s.request ≤ job.targetSize := by
  refine (readFileAsync_ensures launch Nat.two_pos Nat.one_lt_two Nat.zero_ne_one
    (Nat.min_le_left _ _)).mono ?_
  rintro s ⟨hs, -⟩
  have hcalls : s.calls = [] := by
    rw [hs]
    rfl
  refine ⟨?_, ?_, ?_⟩
  · exact
      { readBufnum_lt := by
          rw [hs]
          exact Nat.two_pos
        target_eq := by rw [hs]
        size_pos := by
          dsimp only
          rw [Function.update_self]
          exact Nat.one_pos
        reading := by
          rw [hs]
          exact fun _ => ⟨rfl, rfl⟩
        pos_eq := by
          rw [hs]
          exact hpos
        drive_eq := by
          rw [hs]
          exact fun _ i hi => absurd hi (Nat.not_lt_zero i)
        apart := by
          intro call hcall
          rw [show _ = [] from hcalls] at hcall
          cases hcall }
  · rw [hs]
    rfl
  · rw [hs]
    show 0 + min bufSize job.targetSize ≤ _
    omega

theorem readFileAsync_fits {bufSize size : ℕ} :
    Ensures (readFileAsync bufSize size launch s) fun _ =>
      s.readBufnum * bufSize + size ≤ bufSize * numBuffers % 2 ^ 32 :=
  .ite (fun hfits => .assertThat fun _ => .pure hfits) fun _ => .error

/-- The branch is left before its first read, or comes to its loop. -/
theorem writeImage_rule {P : Option Bool × DriveCopy → Prop} (hjob : job.Sized)
    (hearly : ∀ s, s.calls = [] → s.inFlight = false → P (some false, s))
    (hloop : job.Starts →
      min (ceilAlign ddBufferSize job.sectorSize) job.targetSize
        ≤ ceilAlign ddBufferSize job.sectorSize * numBuffers % 2 ^ 32 →
      ∀ s : DriveCopy,
      Copying job (ceilAlign ddBufferSize job.sectorSize)
        (job.rewound = true ∨ pos = 0) s →
      s.wb = 0 → s.offset + s.request ≤ job.targetSize →
      Ensures (copyLoop job (ceilAlign ddBufferSize job.sectorSize) rounds s) P) :
    Ensures (writeImage job drive pos buffer launch rounds) P := by
  obtain ⟨hsize, -⟩ := hjob.chunk
  refine .ite (fun _ => .pure (hearly _ rfl rfl)) fun _ =>
    .ite (fun _ => .pure (hearly _ rfl rfl)) fun hmounted =>
    .ite (fun _ => .pure (hearly _ rfl rfl)) fun hopened => ?_
  rw [hsize, C.ok_bind]
  refine .ite (fun _ => .pure (hearly _ rfl rfl)) fun hallocated => ?_
  have hstarts : job.Starts := by
    refine ⟨fun hvhd => ⟨?_, fun hempty => hmounted ⟨hvhd, .inr hempty⟩⟩,
      (Bool.not_eq_false _).mp hopened, (Bool.not_eq_false _).mp hallocated⟩
    exact (Bool.not_eq_false _).mp fun hno => hmounted ⟨hvhd, .inl hno⟩
  refine .bind_eq fun s hread => ?_
  have hfits := readFileAsync_fits s hread
  rw [Nat.zero_mul, Nat.zero_add] at hfits
  have hpos : job.rewound = true ∨ pos = 0 → (if job.rewound = true then 0 else pos) = 0 := by
    intro hr
    split
    case isTrue => rfl
    case isFalse hno => exact hr.resolve_left hno
  obtain ⟨hcopying, hwb, hrequest⟩ := copying_first _ launch hpos s hread
  exact hloop hstarts hfits _ hcopying hwb hrequest

theorem writeImage_ensures (hjob : job.Sized) :
    Ensures (writeImage job drive pos buffer launch rounds) fun r =>
      r.2.Apart ∧ (r.1 = some true → (job.rewound = true ∨ pos = 0) →
        ∀ i < job.targetSize, r.2.drive i = job.source i) := by
  obtain ⟨-, hc⟩ := hjob.chunk
  refine writeImage_rule hjob (fun s hcalls _ => ⟨?_, nofun⟩) fun _ _ s hs _ _ =>
    copyLoop_ensures hc rounds s hs
  intro call hcall
  rw [hcalls] at hcall
  cases hcall

/-- **The image is written.** If the branch returns `TRUE`, on a drive that was
rewound or did not have to be, the drive starts with the image as far as it
has room for it; and no `WriteFile` is ever handed the buffer that the read
in flight goes to. -/
theorem writeImage_writes (hjob : job.Sized)
    (h : writeImage job drive pos buffer launch rounds = .ok (result, s)) :
    s.Apart ∧ (result = some true → (job.rewound = true ∨ pos = 0) →
      ∀ i < min job.diskSize job.image.length,
        job.image[i]? = some (s.drive i)) := by
  obtain ⟨happart, hdrive⟩ := writeImage_ensures hjob _ h
  refine ⟨happart, fun hresult hr i hi => ?_⟩
  have hlt : i < job.image.length := lt_of_lt_of_le hi (Nat.min_le_right _ _)
  rw [hdrive hresult hr i (lt_of_lt_of_le hi job.min_le_targetSize),
    ImageJob.source, List.getD_eq_getElem?_getD, List.getElem?_eq_getElem hlt]
  rfl

/-- Three bytes for a drive of two sectors. -/
def shortImage (rewound : Bool) : ImageJob where
  diskSize := 1024
  sectorSize := 512
  image := [1, 2, 3]
  vhd := false
  rewound := rewound
  mounted := false
  opened := true
  allocated := true

/-- A turn of the loop in which the first `WriteFile` writes so many bytes. -/
def shortRound (first : ℕ) : Round where
  signalled := true
  transferred := true
  launch := ⟨.pending, fun _ => 0⟩
  attempt := fun left =>
    { cancelled := false, succeeded := true
      written := if left = 3 then first else 512
      debris := fun _ => 0, pos := 1, repositioned := true }

theorem shortImage_sized (rewound : Bool) : (shortImage rewound).Sized where
  sectorSize := ⟨9, by decide, by decide, rfl⟩
  diskSize_lt := by
    change 1024 < 2 ^ 63
    decide
  image_lt := by
    change 3 < 2 ^ 63
    decide

/-- A run on a drive whose file pointer is at byte 512 before. -/
def shortRun (rewound : Bool) (first : ℕ) : C (Option Bool × DriveCopy) :=
  writeImage (shortImage rewound) (fun _ => 0) 512 (fun _ => 0)
    ⟨.pending, fun _ => 0⟩ [shortRound first]

theorem writeImage_writes_short : ∃ s : DriveCopy,
    shortRun true 1 = .ok (some true, s) ∧
    s.Apart ∧ ∀ i < 3, (shortImage true).image[i]? = some (s.drive i) := by
  have hrun : (shortRun true 1).map Prod.fst = .ok (some true) := by
    decide +kernel
  cases hs : shortRun true 1 with
  | error e =>
      rw [hs] at hrun
      cases hrun
  | ok r =>
      obtain ⟨result, s⟩ := r
      rw [hs] at hrun
      cases hrun
      obtain ⟨happart, hdrive⟩ := writeImage_writes (shortImage_sized true) hs
      exact ⟨s, rfl, happart, hdrive rfl (.inl rfl)⟩

/-- A drive that could not be rewound only gets a warning: the image is then
written from where the file pointer is. -/
theorem writeImage_unrewound : ¬∀ (job : ImageJob) (drive : Memory) (pos : ℕ)
    (buffer : Memory) (launch : Launch) (rounds : List Round)
    (result : Option Bool) (s : DriveCopy), job.Sized →
    writeImage job drive pos buffer launch rounds = .ok (result, s) →
    s.Apart ∧ (result = some true →
      ∀ i < min job.diskSize job.image.length,
        job.image[i]? = some (s.drive i)) := by
  intro h
  have hrun : (shortRun false 512).map (fun r => (r.1, r.2.drive 0))
      = .ok (some true, 0) := by
    decide +kernel
  cases hs : shortRun false 512 with
  | error e =>
      rw [hs] at hrun
      cases hrun
  | ok r =>
      obtain ⟨result, s⟩ := r
      rw [hs] at hrun
      obtain ⟨-, hdrive⟩ := h _ _ _ _ _ _ _ _ (shortImage_sized false) hs
      simp only [Except.map, Except.ok.injEq, Prod.mk.injEq] at hrun
      have hfirst := hdrive hrun.1 0 (by decide)
      rw [hrun.2] at hfirst
      revert hfirst
      decide

end

end Nawam
