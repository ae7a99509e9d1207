import Nawam.Format.WriteDrive

/-!
# Reading ahead of the image

Which part of the image `WriteDrive` asks for. A turn of the loop launches the
read of the next chunk before it writes this one, and bounds it by what is
left of the target after this one. This one was rounded up to sectors, so
after the last chunk of a target that is not whole sectors less than nothing
is left, in unsigned arithmetic, and a full buffer is asked for.

What a run shows is the read launched last; every read is the last one of the
run whose script ends with the turn that launched it.
-/

namespace Nawam

/-- The read that was launched last, as long as it is in flight, ends where
the target does or before. -/
def DriveCopy.ReadsWithin (job : ImageJob) (s : DriveCopy) : Prop :=
  s.inFlight = true → s.offset + s.request ≤ job.targetSize

namespace ImageJob

/-- Where the drive is written after the chunk at `wb`. -/
def nextWb (job : ImageJob) (bufSize wb : ℕ) : ℕ :=
  wb + ceilAlign (min bufSize (job.targetSize - wb)) job.sectorSize

/-- The read launched while the chunk at `wb` is written: its offset and its
size. -/
def readAhead (job : ImageJob) (bufSize wb : ℕ) : ℕ × ℕ :=
  (wb + min bufSize (job.targetSize - wb),
    min bufSize (wrapSub 64 job.targetSize (job.nextWb bufSize wb)))

section

variable {job : ImageJob} {bufSize wb : ℕ}

theorem dvd_nextWb (hwb : job.sectorSize ∣ wb) :
    job.sectorSize ∣ job.nextWb bufSize wb :=
  Nat.dvd_add hwb (dvd_ceilAlign _ _)

/-- A chunk that is a full buffer is not rounded. -/
theorem nextWb_of_full (hc : job.Chunk bufSize)
    (hfull : bufSize ≤ job.targetSize - wb) : job.nextWb bufSize wb = wb + bufSize := by
  rw [nextWb, Nat.min_eq_left hfull, ceilAlign_of_dvd hc.sector_pos hc.sector_dvd]

/-- The last chunk of a target of whole sectors is not rounded either. -/
theorem nextWb_of_last (hc : job.Chunk bufSize) (hwb : job.sectorSize ∣ wb)
    (ht : job.sectorSize ∣ job.targetSize) (hle : wb ≤ job.targetSize)
    (hlast : job.targetSize - wb ≤ bufSize) :
    job.nextWb bufSize wb = job.targetSize := by
  rw [nextWb, Nat.min_eq_right hlast,
    ceilAlign_of_dvd hc.sector_pos (Nat.dvd_sub ht hwb)]
  omega

/-- A target of whole sectors is not read past. -/
theorem readAhead_within (hc : job.Chunk bufSize) (hwb : job.sectorSize ∣ wb)
    (ht : job.sectorSize ∣ job.targetSize) (hlt : wb < job.targetSize) :
    (job.readAhead bufSize wb).1 + (job.readAhead bufSize wb).2 ≤ job.targetSize := by
  have htarget := hc.target_lt
  rcases Nat.le_total bufSize (job.targetSize - wb) with hfull | hlast
  · rw [readAhead, nextWb_of_full hc hfull, wrapSub_of_le (by omega) (by omega)]
    omega
  · rw [readAhead, nextWb_of_last hc hwb ht hlt.le hlast,
      wrapSub_of_le le_rfl (by omega)]
    omega

/-- Any other target is, by a full buffer, while its last chunk is
written. -/
theorem readAhead_past (hc : job.Chunk bufSize) (hwb : job.sectorSize ∣ wb)
    (ht : ¬job.sectorSize ∣ job.targetSize) (hlt : wb < job.targetSize)
    (hlast : job.targetSize - wb ≤ bufSize) :
    job.readAhead bufSize wb = (job.targetSize, bufSize) := by
  have htarget := hc.target_lt
  have hbuf := hc.add_sector_le
  have hround : job.targetSize < job.nextWb bufSize wb := by
    rw [nextWb, Nat.min_eq_right hlast]
    have hle := le_ceilAlign (job.targetSize - wb) hc.sector_pos
    have hne : ceilAlign (job.targetSize - wb) job.sectorSize ≠ job.targetSize - wb := by
      intro heq
      have hdvd := Nat.dvd_add hwb (heq ▸ dvd_ceilAlign (job.targetSize - wb) job.sectorSize)
      rw [Nat.add_sub_of_le hlt.le] at hdvd
      exact ht hdvd
    omega
  have hnext : job.nextWb bufSize wb < job.targetSize + job.sectorSize := by
    rw [nextWb, Nat.min_eq_right hlast]
    have hceil := ceilAlign_lt (job.targetSize - wb) hc.sector_pos
    omega
  have hwrap : bufSize ≤ wrapSub 64 job.targetSize (job.nextWb bufSize wb) := by
    rw [wrapSub, Nat.mod_eq_of_lt (by omega)]
    omega
  rw [readAhead, Nat.min_eq_right hlast, Nat.min_eq_left hwrap]
  congr 1
  omega

end

end ImageJob

/-! ## What a turn reads -/

section

variable {job : ImageJob} {bufSize size : ℕ} {rewound : Prop} {s : DriveCopy}

theorem getSizeAsync_false {round : Round} {s' : DriveCopy}
    (h : getSizeAsync job bufSize round s = (false, s')) :
    s'.offset = s.offset ∧ s'.request = s.request := by
  unfold getSizeAsync at h
  split at h
  · cases h
    exact ⟨rfl, rfl⟩
  · split at h
    · cases h
      exact ⟨rfl, rfl⟩
    · split at h
      · cases h
        exact ⟨rfl, rfl⟩
      · cases h

/-- The read that a turn leaves in flight: the one that was before it, or the
one it launched itself. If the turn goes through it is the latter. -/
theorem copyRound_reads (round : Round) (hc : job.Chunk bufSize)
    (h : Copying job bufSize rewound s) (hwb : s.wb < job.targetSize) :
    Ensures (copyRound job bufSize round s) fun r =>
      ((r.2.offset, r.2.request) = (s.offset, s.request) ∨
        (r.2.offset, r.2.request) = job.readAhead bufSize s.wb) ∧
      (r.1 = true → (r.2.offset, r.2.request) = job.readAhead bufSize s.wb ∧
        r.2.wb = job.nextWb bufSize s.wb) := by
  have htarget := hc.target_lt
  have hbuf := hc.add_sector_le
  obtain ⟨hoffset, hrequest⟩ := h.reading hwb
  have himage : job.targetSize ≤ job.image.length := job.targetSize_le
  apply Ensures.ite
  · intro _
    exact Ensures.pure ⟨.inl rfl, nofun⟩
  intro _
  cases hget : getSizeAsync job bufSize round s with
  | mk got s₁ =>
  apply Ensures.ite
  · intro hgot
    cases hgot
    obtain ⟨hoffset₁, hrequest₁⟩ := getSizeAsync_false hget
    exact Ensures.pure ⟨.inl (Prod.ext hoffset₁ hrequest₁), nofun⟩
  intro hgot
  cases (Bool.not_eq_false got).mp hgot
  obtain ⟨size, hsize⟩ : ∃ size, min bufSize (job.targetSize - s.wb) = size :=
    ⟨_, rfl⟩
  have hgot' : min s.request (job.image.length - s.offset) = size := by omega
  have hs₁ := getSizeAsync_eq hgot' hget
  have hread : s₁.readSize s₁.readBufnum = size := by
    rw [hs₁]
    exact Function.update_self ..
  rw [hread]
  refine Ensures.bind (alignReadSize_ensures hc (by omega)) fun aligned ha => ?_
  have hceil := ceilAlign_lt size hc.sector_pos
  have hnext : (s.wb + aligned) % 2 ^ 64 = job.nextWb bufSize s.wb := by
    rw [ha, Nat.mod_eq_of_lt (by omega), ImageJob.nextWb, hsize]
  have hread₁ : s₁.readBufnum = s.readBufnum := by rw [hs₁]
  have hwb₁ : s₁.wb = s.wb := by rw [hs₁]
  have hlt : s.readBufnum < 2 := h.readBufnum_lt
  dsimp only
  rw [hread₁, hwb₁, hnext]
  refine Ensures.bind (readFileAsync_ensures round.launch
    (Nat.mod_lt _ (by decide)) hlt
    (show (s.readBufnum + 1) % 2 ≠ s.readBufnum by omega)
    (Nat.min_le_left _ _)) ?_
  rintro s₃ ⟨hs₃, -⟩
  have hproc₃ : s₃.procBufnum = s.readBufnum := by rw [hs₃]
  have htarget₃ : s₃.target = (s.readBufnum + 1) % 2 := by rw [hs₃]
  -- what is written leaves the read alone
  have hahead : (s₃.offset, s₃.request) = job.readAhead bufSize s.wb := by
    rw [hs₃, hs₁, hoffset, ImageJob.readAhead, hsize]
  refine Ensures.bind (writeWithRetry_ensures round.attempt writeRetries s₃
    (fun _ => by rw [htarget₃, hproc₃]; omega) False.elim) ?_
  rintro ⟨written, s₄⟩ ⟨hwrites, -, -⟩
  dsimp only at hwrites ⊢
  have hahead₄ : (s₄.offset, s₄.request) = job.readAhead bufSize s.wb := by
    rw [← hahead, hwrites.frame]
  apply Ensures.ite
  · intro _
    refine Ensures.pure ⟨.inr hahead₄, fun _ => ⟨hahead₄, ?_⟩⟩
    show (s₄.wb + aligned) % 2 ^ 64 = _
    rw [hwrites.wb_eq, hs₃, ← hnext]
  · intro _
    exact Ensures.pure ⟨.inr hahead₄, nofun⟩

/-- The loop over a target of whole sectors. -/
theorem copyLoop_within (hc : job.Chunk bufSize)
    (ht : job.sectorSize ∣ job.targetSize) :
    ∀ (rounds : List Round) (s : DriveCopy), Copying job bufSize rewound s →
      job.sectorSize ∣ s.wb → s.offset + s.request ≤ job.targetSize →
      Ensures (copyLoop job bufSize rounds s) fun r => r.2.ReadsWithin job := by
  intro rounds
  induction rounds with
  | nil =>
      intro s _ _ hread
      unfold copyLoop
      refine .ite (fun _ => .pure fun _ => hread) fun _ =>
        .ite (fun _ => .pure fun _ => hread) fun _ => .pure fun _ => hread
  | cons round rounds ih =>
      intro s h hdvd hread
      unfold copyLoop
      refine .ite (fun _ => .pure fun _ => hread) fun _ =>
        .ite (fun _ => .pure fun _ => hread) fun hwb => ?_
      have hlt := not_le.mp hwb
      refine .bind_eq ?_
      rintro ⟨written, s'⟩ hround
      obtain ⟨-, hcopying⟩ := copyRound_ensures round hc h hlt _ hround
      obtain ⟨hreads, hwritten⟩ := copyRound_reads round hc h hlt _ hround
      dsimp only at hcopying hreads hwritten
      have hahead := ImageJob.readAhead_within hc hdvd ht hlt
      have hread' : s'.offset + s'.request ≤ job.targetSize := by
        rcases hreads with heq | heq
        · obtain ⟨hoffset, hrequest⟩ := Prod.mk.inj heq
          omega
        · rwa [← heq] at hahead
      refine .ite (fun hgoes => ?_) fun _ => .pure fun _ => hread'
      have hdvd' : job.sectorSize ∣ s'.wb :=
        (hwritten hgoes).2 ▸ ImageJob.dvd_nextWb hdvd
      exact ih s' (hcopying hgoes) hdvd' hread'

/-! ## A run without errors -/

/-- A turn in which nothing goes wrong, and the `size` bytes are written at
once. -/
def promptRound (size : ℕ) : Round where
  signalled := true
  transferred := true
  launch := ⟨.pending, fun _ => 0⟩
  attempt := fun _ =>
    { cancelled := false, succeeded := true, written := size
      debris := fun _ => 0, pos := 0, repositioned := true }

structure DriveCopy.Waits (s : DriveCopy) : Prop where
  status_eq : s.status = .pending
  offsetUpdated_eq : s.offsetUpdated = false
  inFlight_eq : s.inFlight = true

/-- Each of the buffers lies in what is allocated for them. -/
theorem buffer_fits {b n : ℕ} (hbuf : bufSize * numBuffers < 2 ^ 32)
    (hb : b < numBuffers) (hn : n ≤ bufSize) :
    b * bufSize + n ≤ bufSize * numBuffers % 2 ^ 32 := by
  rw [Nat.mod_eq_of_lt hbuf, Nat.mul_comm bufSize]
  calc b * bufSize + n ≤ b * bufSize + bufSize := Nat.add_le_add_left hn _
    _ = (b + 1) * bufSize := (Nat.succ_mul b bufSize).symm
    _ ≤ numBuffers * bufSize := Nat.mul_le_mul_right _ hb

theorem readFileAsync_waits {n : ℕ} (size : ℕ) (hbuf : bufSize * numBuffers < 2 ^ 32)
    (hread : s.readBufnum < numBuffers) (hn : n ≤ bufSize) :
    ∃ s', readFileAsync bufSize n (promptRound size).launch s = .ok s' ∧
      s'.Waits ∧ s'.procBufnum = s.procBufnum := by
  refine ⟨_, if_pos (buffer_fits hbuf hread hn), ?_, ?_⟩
  · exact ⟨rfl, rfl, rfl⟩
  · rfl

theorem writeWithRetry_waits (hbuf : bufSize * numBuffers < 2 ^ 32)
    (hproc : s.procBufnum < numBuffers) (hsize : size ≤ bufSize) (hs : s.Waits) :
    ∃ s', writeWithRetry bufSize size (promptRound size).attempt writeRetries s
      = .ok (true, s') ∧ s'.Waits := by
  have hfit := buffer_fits hbuf hproc hsize
  obtain ⟨s', hwrite, hs'⟩ : ∃ s', writeFile bufSize size
      ((promptRound size).attempt 3) s = .ok (true, s') ∧ s'.Waits :=
    ⟨_, (if_pos hfit).trans (if_pos ⟨rfl, rfl⟩),
      ⟨hs.status_eq, hs.offsetUpdated_eq, hs.inFlight_eq⟩⟩
  refine ⟨s', ?_, hs'⟩
  have hgoes : ((promptRound size).attempt 3).cancelled = false := rfl
  simp [writeWithRetry, hgoes, hwrite]

/-- Such a turn goes through, and leaves a read under way. -/
theorem copyRound_prompt (hc : job.Chunk bufSize)
    (hbuf : bufSize * numBuffers < 2 ^ 32) (h : Copying job bufSize rewound s)
    (hwb : s.wb < job.targetSize) (hs : s.Waits) :
    ∃ round s', copyRound job bufSize round s = .ok (true, s') ∧ s'.Waits := by
  obtain ⟨hoffset, hrequest⟩ := h.reading hwb
  have himage : job.targetSize ≤ job.image.length := job.targetSize_le
  obtain ⟨size, hsize⟩ : ∃ size, min bufSize (job.targetSize - s.wb) = size :=
    ⟨_, rfl⟩
  have hgot : min s.request (job.image.length - s.offset) = size := by omega
  have hceil : ceilAlign size job.sectorSize ≤ bufSize :=
    ceilAlign_le hc.sector_pos hc.sector_dvd (by omega)
  have halign := alignReadSize_ok hc (show size ≤ bufSize by omega)
  refine ⟨promptRound (ceilAlign size job.sectorSize), ?_⟩
  have hwait : waitFileAsync (promptRound (ceilAlign size job.sectorSize)) s ≠ false := by
    simp [waitFileAsync, promptRound]
  have hget : (getSizeAsync job bufSize
      (promptRound (ceilAlign size job.sectorSize)) s).1 = true := by
    simp [getSizeAsync, hs.status_eq, hs.offsetUpdated_eq, promptRound]
  cases hget' : getSizeAsync job bufSize
      (promptRound (ceilAlign size job.sectorSize)) s with
  | mk got s₁ =>
  rw [hget'] at hget
  cases hget
  have hs₁ := getSizeAsync_eq hgot hget'
  have hread : s₁.readSize s₁.readBufnum = size := by
    rw [hs₁]
    exact Function.update_self ..
  have hread₁ : s₁.readBufnum = s.readBufnum := by rw [hs₁]
  obtain ⟨s₂, hlaunch, hwaits₂, hproc₂⟩ := readFileAsync_waits
    (ceilAlign size job.sectorSize)
    (s := { s₁ with
      readSize := Function.update s₁.readSize s.readBufnum (ceilAlign size job.sectorSize)
      procBufnum := s.readBufnum
      readBufnum := (s.readBufnum + 1) % numBuffers }) hbuf
    (Nat.mod_lt _ (by decide)) (Nat.min_le_left bufSize
      (wrapSub 64 job.targetSize ((s₁.wb + ceilAlign size job.sectorSize) % 2 ^ 64)))
  obtain ⟨s₃, hwrite, hwaits₃⟩ := writeWithRetry_waits hbuf
    (show s₂.procBufnum < numBuffers by rw [hproc₂]; exact h.readBufnum_lt) hceil hwaits₂
  refine ⟨{ s₃ with wb := (s₃.wb + ceilAlign size job.sectorSize) % 2 ^ 64 }, ?_,
    ⟨hwaits₃.status_eq, hwaits₃.offsetUpdated_eq, hwaits₃.inFlight_eq⟩⟩
  rw [copyRound, if_neg hwait, hget']
  dsimp only
  rw [if_neg (by decide), hread, halign, C.ok_bind, hread₁]
  rw [hlaunch, C.ok_bind, hwrite]
  rfl

theorem copyLoop_cons {round : Round} {s' : DriveCopy} (rounds : List Round)
    (hsize : 0 < s.readSize s.procBufnum) (hwb : s.wb < job.targetSize)
    (hround : copyRound job bufSize round s = .ok (true, s')) :
    copyLoop job bufSize (round :: rounds) s = copyLoop job bufSize rounds s' := by
  rw [copyLoop, if_neg hsize.ne', if_neg (not_le.mpr hwb), hround, C.ok_bind]
  rfl

/-- The loop over any other target gets to a turn that reads past it. -/
theorem copyLoop_past (hc : job.Chunk bufSize) (hbuf : bufSize * numBuffers < 2 ^ 32)
    (ht : ¬job.sectorSize ∣ job.targetSize) (s : DriveCopy)
    (h : Copying job bufSize rewound s) (hs : s.Waits) (hdvd : job.sectorSize ∣ s.wb)
    (hwb : s.wb < job.targetSize) :
    ∃ rounds result s', copyLoop job bufSize rounds s = .ok (result, s') ∧
      ¬s'.ReadsWithin job := by
  obtain ⟨round, s', hround, hs'⟩ := copyRound_prompt hc hbuf h hwb hs
  have h' := (copyRound_ensures round hc h hwb _ hround).2 rfl
  obtain ⟨hread, hnext⟩ := (copyRound_reads round hc h hwb _ hround).2 rfl
  dsimp only at h' hread hnext
  rcases Nat.lt_or_ge bufSize (job.targetSize - s.wb) with hmore | hlast
  · -- a full buffer, and more to come
    rw [ImageJob.nextWb_of_full hc hmore.le] at hnext
    have hpos := hc.pos
    have hcloser : job.targetSize - s'.wb < job.targetSize - s.wb := by omega
    obtain ⟨rounds, result, s'', hrun, hpast⟩ := copyLoop_past hc hbuf ht s' h' hs'
      (hnext ▸ Nat.dvd_add hdvd hc.sector_dvd) (by omega)
    exact ⟨round :: rounds, result, s'',
      (copyLoop_cons rounds h.size_pos hwb hround).trans hrun, hpast⟩
  · -- the last chunk, after which the loop ends
    have hend : job.targetSize ≤ s'.wb := by
      rw [hnext, ImageJob.nextWb, Nat.min_eq_right hlast]
      have hle := le_ceilAlign (job.targetSize - s.wb) hc.sector_pos
      omega
    refine ⟨[round], some true, s', ?_, fun hwithin => ?_⟩
    · rw [copyLoop_cons [] h.size_pos hwb hround, copyLoop, if_neg h'.size_pos.ne',
        if_pos hend]
      rfl
    · rw [ImageJob.readAhead_past hc hdvd ht hwb hlast] at hread
      obtain ⟨hoffset, hrequest⟩ := Prod.mk.inj hread
      have hle := hwithin hs'.inFlight_eq
      have hpos := hc.pos
      omega
termination_by job.targetSize - s.wb
decreasing_by exact hcloser

end

/-! ## The branch -/

section

variable {job : ImageJob}

/-- Two buffers of a job that starts are less than 4 GB. -/
theorem bufSize_lt (hjob : job.Sized) (hlt : job.sectorSize < 2 ^ 31) :
    ceilAlign ddBufferSize job.sectorSize * numBuffers < 2 ^ 32 := by
  obtain ⟨k, -, -, hsector⟩ := hjob.sectorSize
  have hk : k < 31 := by
    rw [hsector] at hlt
    exact (Nat.pow_lt_pow_iff_right (by decide)).mp hlt
  have hdvd : job.sectorSize ∣ 2 ^ 30 := hsector ▸ Nat.pow_dvd_pow 2 (by omega)
  have hle : ceilAlign ddBufferSize job.sectorSize ≤ 2 ^ 30 :=
    ceilAlign_le (hsector ▸ Nat.two_pow_pos k) hdvd (by decide)
  calc ceilAlign ddBufferSize job.sectorSize * numBuffers
      ≤ 2 ^ 30 * numBuffers := Nat.mul_le_mul_right _ hle
    _ < 2 ^ 32 := by decide

/-- Over sectors of 2 GB the size of the two buffers wraps to 0, and no byte
can be read. -/
theorem targetSize_eq_zero (hjob : job.Sized) (hge : 2 ^ 31 ≤ job.sectorSize)
    (hfits : min (ceilAlign ddBufferSize job.sectorSize) job.targetSize
      ≤ ceilAlign ddBufferSize job.sectorSize * numBuffers % 2 ^ 32) :
    job.targetSize = 0 := by
  obtain ⟨k, hk, -, hsector⟩ := hjob.sectorSize
  have hk' : k = 31 := by
    rw [hsector] at hge
    have hle := (Nat.pow_le_pow_iff_right (by decide)).mp hge
    omega
  rw [hsector, hk'] at hfits
  have hbuf : ceilAlign ddBufferSize (2 ^ 31) = 2 ^ 31 := by decide
  have hwrap : 2 ^ 31 * numBuffers % 2 ^ 32 = 0 := by decide
  rw [hbuf, hwrap] at hfits
  omega

/-- A job that starts comes to the head of its loop, with a read under way. -/
theorem writeImage_loop (hjob : job.Sized) (hstarts : job.Starts)
    (hlt : job.sectorSize < 2 ^ 31) :
    ∃ s : DriveCopy, Copying job (ceilAlign ddBufferSize job.sectorSize) True s ∧
      s.Waits ∧ s.wb = 0 ∧
      ∀ rounds, writeImage job (fun _ => 0) 0 (fun _ => 0) (promptRound 0).launch rounds
        = copyLoop job (ceilAlign ddBufferSize job.sectorSize) rounds s := by
  obtain ⟨hsize, hc⟩ := hjob.chunk
  obtain ⟨k, -, hk, hsector⟩ := hjob.sectorSize
  have hlarge : ¬job.sectorSize < 512 := by
    rw [hsector]
    exact not_lt.mpr (show 2 ^ 9 ≤ 2 ^ k from Nat.pow_le_pow_right Nat.two_pos hk)
  have hmounted : ¬(job.vhd = true ∧ (job.mounted = false ∨ job.image = [])) := by
    rintro ⟨hvhd, hno | hno⟩
    · exact absurd (hstarts.mounted hvhd).1 (by rw [hno]; decide)
    · exact (hstarts.mounted hvhd).2 hno
  obtain ⟨s, hread, hwaits, -⟩ := readFileAsync_waits 0
    (s := .atStart (fun _ => 0) 0 (fun _ => 0)) (bufSize_lt hjob hlt)
    (show 0 < numBuffers from Nat.two_pos) (Nat.min_le_left _ job.targetSize)
  obtain ⟨hcopying, hwb, -⟩ := copying_first True (promptRound 0).launch (fun _ => rfl)
    s hread
  refine ⟨_, hcopying, ⟨hwaits.status_eq, hwaits.offsetUpdated_eq, hwaits.inFlight_eq⟩,
    hwb, fun rounds => ?_⟩
  simp only [writeImage, if_neg hlarge, if_neg hmounted, hstarts.opened,
    hstarts.allocated, hsize, C.ok_bind, ite_self, reduceCtorEq, if_false]
  rw [← DriveCopy.atStart, hread, C.ok_bind]

/-- A job that starts on a target of anything but whole sectors has a run that
reads past it. -/
theorem writeImage_past (hjob : job.Sized) (hstarts : job.Starts)
    (hlt : job.sectorSize < 2 ^ 31) (ht : ¬job.sectorSize ∣ job.targetSize) :
    ∃ (drive : Memory) (pos : ℕ) (buffer : Memory) (launch : Launch)
      (rounds : List Round) (result : Option Bool) (s : DriveCopy),
      writeImage job drive pos buffer launch rounds = .ok (result, s) ∧
      ¬s.ReadsWithin job := by
  obtain ⟨-, hc⟩ := hjob.chunk
  obtain ⟨s, hcopying, hwaits, hwb, hloop⟩ := writeImage_loop hjob hstarts hlt
  have hpos : s.wb < job.targetSize := by
    rw [hwb]
    exact Nat.pos_of_ne_zero fun hzero => ht (hzero ▸ dvd_zero _)
  obtain ⟨rounds, result, s', hrun, hpast⟩ := copyLoop_past hc
    (bufSize_lt hjob hlt) ht s hcopying hwaits (hwb ▸ dvd_zero _) hpos
  exact ⟨_, _, _, _, rounds, result, s', (hloop rounds).trans hrun, hpast⟩

/-- Every read of a job on a target of whole sectors ends within it. -/
theorem writeImage_within {drive buffer : Memory} {pos : ℕ} {launch : Launch}
    {rounds : List Round} (hjob : job.Sized)
    (ht : job.Starts → job.sectorSize < 2 ^ 31 → job.sectorSize ∣ job.targetSize) :
    Ensures (writeImage job drive pos buffer launch rounds)
      fun r => r.2.ReadsWithin job := by
  obtain ⟨-, hc⟩ := hjob.chunk
  refine writeImage_rule hjob (fun s _ hidle hin => ?_)
    fun hstarts hfits s hs hwb hread => ?_
  · rw [hidle] at hin
    cases hin
  · have hdvd : job.sectorSize ∣ job.targetSize := by
      rcases Nat.lt_or_ge job.sectorSize (2 ^ 31) with hlt | hge
      · exact ht hstarts hlt
      · rw [targetSize_eq_zero hjob hge hfits]
        exact dvd_zero _
    exact copyLoop_within hc hdvd rounds s hs (hwb ▸ dvd_zero _) hread

/-- **What is read of the image.** Every read that the branch launches ends
where the target does or before, in every run, exactly if the target is whole
sectors, or the branch does not come to its loop. -/
theorem writeImage_reads_iff (hjob : job.Sized) :
    (∀ (drive : Memory) (pos : ℕ) (buffer : Memory) (launch : Launch)
      (rounds : List Round) (result : Option Bool) (s : DriveCopy),
      writeImage job drive pos buffer launch rounds = .ok (result, s) →
      s.ReadsWithin job) ↔
    (job.Starts → job.sectorSize < 2 ^ 31 → job.sectorSize ∣ job.targetSize) := by
  constructor
  · intro hreads hstarts hlt
    by_contra ht
    obtain ⟨drive, pos, buffer, launch, rounds, result, s, hrun, hpast⟩ :=
      writeImage_past hjob hstarts hlt ht
    exact hpast (hreads drive pos buffer launch rounds result s hrun)
  · intro ht drive pos buffer launch rounds result s hrun
    exact writeImage_within hjob ht _ hrun

/-- A mounted VHD of 512 bytes for a drive of 4 KB sectors. -/
def smallVhd : ImageJob where
  diskSize := 2 ^ 20
  sectorSize := 4096
  image := List.replicate 512 0
  vhd := true
  rewound := true
  mounted := true
  opened := true
  allocated := true

theorem smallVhd_sized : smallVhd.Sized where
  sectorSize := ⟨12, by decide, by decide, rfl⟩
  diskSize_lt := by
    change 2 ^ 20 < 2 ^ 63
    decide
  image_lt := by
    change (List.replicate 512 0).length < 2 ^ 63
    rw [List.length_replicate]
    decide

theorem smallVhd_targetSize : smallVhd.targetSize = 512 :=
  List.length_replicate

theorem writeImage_reads_iff_smallVhd :
    (∀ (drive : Memory) (pos : ℕ) (buffer : Memory) (launch : Launch)
      (rounds : List Round) (result : Option Bool) (s : DriveCopy),
      writeImage smallVhd drive pos buffer launch rounds = .ok (result, s) →
      s.ReadsWithin smallVhd) ↔
    (smallVhd.Starts → smallVhd.sectorSize < 2 ^ 31 →
      smallVhd.sectorSize ∣ smallVhd.targetSize) :=
  writeImage_reads_iff smallVhd_sized

/-- While its only chunk is written, a buffer of 32 MB is asked for behind its
end. -/
theorem writeImage_reads_past : ¬∀ (job : ImageJob) (drive : Memory) (pos : ℕ)
    (buffer : Memory) (launch : Launch) (rounds : List Round)
    (result : Option Bool) (s : DriveCopy), job.Sized →
    writeImage job drive pos buffer launch rounds = .ok (result, s) →
    s.ReadsWithin job := by
  intro h
  have hstarts : smallVhd.Starts := by
    refine ⟨fun _ => ⟨rfl, fun hempty => ?_⟩, rfl, rfl⟩
    exact absurd hempty (List.replicate_succ_ne_nil)
  have hdvd : ¬smallVhd.sectorSize ∣ smallVhd.targetSize := by
    rw [smallVhd_targetSize]
    change ¬4096 ∣ 512
    decide
  obtain ⟨drive, pos, buffer, launch, rounds, result, s, hrun, hpast⟩ :=
    writeImage_past smallVhd_sized hstarts
      (show 4096 < 2 ^ 31 by decide) hdvd
  exact hpast (h _ drive pos buffer launch rounds result s smallVhd_sized hrun)

end

end Nawam
