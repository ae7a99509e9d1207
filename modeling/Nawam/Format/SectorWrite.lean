import Nawam.Base.Trace

/-!
# Sector-aligned writes

`sector_write` of `format.c`, the write override under the decompressors.
They hand over chunks of any size while the drive takes whole sectors only,
so what does not fill a sector waits in `sec_buf` for the next call.

What the override has accepted is what reached the drive followed by what
waits (`SectorStream.accepted`), and a call appends its data to that
(`sectorWrite_streams`). On the drive side nothing but whole sectors is seen.
-/

namespace Nawam

/-! ## Source -/

/-- The globals of the override and the file behind `fd`. -/
structure SectorStream where
  /-- `sec_buf` -/
  secBuf : List UInt8
  /-- `sec_buf_pos` -/
  secBufPos : ℕ
  /-- the bytes written to `fd` so far -/
  file : List UInt8
  /-- the buffer of every `_write` so far -/
  writes : List (List UInt8)

/-- `_write`: what it returns for a buffer, after the buffers it was given
before. -/
abbrev WriteEnv : Type := List (List UInt8) → List UInt8 → ℤ

/-- `_write(fd, bytes, n)` -/
def SectorStream.write (env : WriteEnv) (s : SectorStream)
    (bytes : List UInt8) : ℤ × SectorStream :=
  let written := env s.writes bytes
  (written, { s with
    file := s.file ++ bytes.take written.toNat
    writes := s.writes ++ [bytes] })

/-- How a part of the function is left: by a `return`, or with the number of
bytes it has taken. -/
inductive Flow where
  | returned (result : ℤ)
  | taken (n : ℕ)

/-- The existing partial sector is filled and, if that completes it,
written. -/
def fillSector (env : WriteEnv) (secSize : ℕ) (buf : List UInt8)
    (s : SectorStream) : C (Flow × SectorStream) :=
  if s.secBufPos = 0 then return (.taken 0, s)
  else do
    assertThat (s.secBufPos ≤ secSize)
    let fillSize := min (secSize - s.secBufPos) buf.length
    let data ← loadN buf 0 fillSize
    let secBuf ← copyInto s.secBuf s.secBufPos data
    let pos := s.secBufPos + fillSize
    if pos < secSize then
      return (.returned buf.length, { s with secBuf := secBuf, secBufPos := pos })
    else
      let sector ← loadN secBuf 0 secSize
      let (written, s) :=
        { s with secBuf := secBuf, secBufPos := 0 }.write env sector
      if written ≠ secSize then return (.returned written, s)
      else return (.taken fillSize, s)

/-- As many full sectors as there are, and the rest into the sector buffer. -/
def writeSectors (env : WriteEnv) (secSize fillSize : ℕ) (buf : List UInt8)
    (s : SectorStream) : C (ℤ × SectorStream) := do
  let secNum := (buf.length - fillSize) / secSize
  let bulk ← loadN buf fillSize (secNum * secSize)
  let (written, s) := s.write env bulk
  if written < 0 then return (written, s)
  else if written ≠ (secNum * secSize : ℕ) then
    let v := fillSize + written
    assertThat (fillSize ≤ v)
    return (v, s)
  else
    let pos := buf.length - fillSize - secNum * secSize
    assertThat (pos < secSize)
    if pos = 0 then return (buf.length, { s with secBufPos := pos })
    else
      let data ← loadN buf (fillSize + secNum * secSize) pos
      let secBuf ← copyInto s.secBuf 0 data
      return (buf.length, { s with secBuf := secBuf, secBufPos := pos })

/-- `sector_write`; `count` is the length of `buf`. -/
def sectorWrite (env : WriteEnv) (sectorSize : ℕ) (buf : List UInt8)
    (s : SectorStream) : C (ℤ × SectorStream) := do
  let secSize := if sectorSize = 0 then 512 else sectorSize
  assertThat (secSize ≤ 64 * 1024)
  assertThat (buf.length ≤ 1024 * 1024 * 1024)
  -- on a sector boundary, a multiple of the sector size is a regular write
  if s.secBufPos = 0 ∧ buf.length % secSize = 0 then return s.write env buf
  else
    match ← fillSector env secSize buf s with
    | (.returned result, s) => return (result, s)
    | (.taken fillSize, s) => writeSectors env secSize fillSize buf s

/-- One call of a run: its result and the state after it. -/
def sectorWriteStep (env : WriteEnv) (sectorSize : ℕ) (buf : List UInt8)
    (s : SectorStream) : C (Trace ℤ SectorStream) := do
  let (result, s) ← sectorWrite env sectorSize buf s
  return [(result, s)]

/-! ## What a call does -/

namespace SectorStream

/-- The data the override has taken: what is on the drive and what waits. -/
def accepted (s : SectorStream) : List UInt8 :=
  s.file ++ s.secBuf.take s.secBufPos

/-- The invariant of the override: part of a sector waits, and the drive was
only given whole sectors. -/
structure Aligned (secSize : ℕ) (s : SectorStream) : Prop where
  buf_length : s.secBuf.length = secSize
  pos_lt : s.secBufPos < secSize
  writes_dvd : ∀ bytes ∈ s.writes, secSize ∣ bytes.length

/-- `s'` has taken `data` on top of what `s` had. -/
structure Streams (secSize : ℕ) (s : SectorStream) (data : List UInt8)
    (s' : SectorStream) : Prop where
  aligned : s'.Aligned secSize
  accepted_eq : s'.accepted = s.accepted ++ data

end SectorStream

section Calls

variable {env : WriteEnv} {secSize : ℕ} {s : SectorStream}
  (hwrite : ∀ before bytes, env before bytes = bytes.length)
include hwrite

theorem write_all (bytes : List UInt8) :
    s.write env bytes = ((bytes.length : ℤ), { s with
      file := s.file ++ bytes
      writes := s.writes ++ [bytes] }) := by
  simp [SectorStream.write, hwrite]

/-- A write of whole sectors out of an empty sector buffer. -/
theorem write_streams (hs : s.Aligned secSize) (hpos : s.secBufPos = 0)
    {bytes : List UInt8} (hdvd : secSize ∣ bytes.length) :
    s.Streams secSize bytes (s.write env bytes).2 := by
  rw [write_all hwrite]
  refine ⟨⟨hs.buf_length, hs.pos_lt, ?_⟩, ?_⟩
  · intro b hb
    rcases List.mem_append.mp hb with hb | hb
    · exact hs.writes_dvd b hb
    · rw [List.mem_singleton.mp hb]
      exact hdvd
  · simp [SectorStream.accepted, hpos]

/-- Filling the partial sector: either all of the data fits and the function
returns, or the sector is complete and written. -/
theorem fillSector_streams (hs : s.Aligned secSize) (buf : List UInt8) :
    ∃ flow s', fillSector env secSize buf s = .ok (flow, s') ∧
      match flow with
      | .returned result => result = buf.length ∧ s.Streams secSize buf s'
      | .taken n => n ≤ buf.length ∧ s'.secBufPos = 0 ∧
          s.Streams secSize (buf.take n) s' := by
  by_cases hpos : s.secBufPos = 0
  · refine ⟨.taken 0, s, if_pos hpos, Nat.zero_le _, hpos, hs, ?_⟩
    simp
  · have hlt := hs.pos_lt
    have hbuf := hs.buf_length
    set n := min (secSize - s.secBufPos) buf.length with hn
    have hn₁ : n ≤ secSize - s.secBufPos := Nat.min_le_left ..
    have hn₂ : n ≤ buf.length := Nat.min_le_right ..
    have hdata : (buf.take n).length = n := List.length_take_of_le hn₂
    have hload : loadN buf 0 n = .ok (buf.take n) := loadN_of_le (by omega)
    -- the sector buffer up to the new position
    set filled := s.secBuf.take s.secBufPos ++ buf.take n with hfilled
    have hfilledLen : filled.length = s.secBufPos + n := by
      rw [hfilled, List.length_append, hdata,
        List.length_take_of_le (by omega)]
    have hcopy : copyInto s.secBuf s.secBufPos (buf.take n)
        = .ok (filled ++ s.secBuf.drop (s.secBufPos + n)) := by
      rw [copyInto_of_le (by omega), hdata, hfilled, List.append_assoc]
    have hlen : (filled ++ s.secBuf.drop (s.secBufPos + n)).length = secSize := by
      rw [List.length_append, hfilledLen, List.length_drop]
      omega
    have htake : (filled ++ s.secBuf.drop (s.secBufPos + n)).take
        (s.secBufPos + n) = filled := by
      rw [← hfilledLen, List.take_left]
    have hassert : assertThat (decide (s.secBufPos ≤ secSize)) = .ok () := by
      rw [decide_eq_true hlt.le, assertThat_true]
    by_cases hfull : s.secBufPos + n < secSize
    · -- all of the data fits
      have hall : n = buf.length := by omega
      refine ⟨.returned buf.length, { s with
        secBuf := filled ++ s.secBuf.drop (s.secBufPos + n)
        secBufPos := s.secBufPos + n }, ?_, rfl, ⟨hlen, hfull, hs.writes_dvd⟩,
        ?_⟩
      · simp only [fillSector, if_neg hpos, hassert, ← hn, hload, hcopy,
          C.ok_bind, if_pos hfull, C.pure_eq]
      · have htaken : buf.take n = buf := by rw [hall, List.take_length]
        show s.file ++ List.take (s.secBufPos + n) _ = s.accepted ++ buf
        rw [htake, hfilled, htaken, SectorStream.accepted, List.append_assoc]
    · -- the sector is complete
      have hsector : filled ++ s.secBuf.drop (s.secBufPos + n) = filled := by
        rw [List.drop_eq_nil_of_le (by omega), List.append_nil]
      have hcomplete : filled.length = secSize := by omega
      have hread : loadN filled 0 secSize = .ok filled := by
        rw [loadN_of_le (by omega), List.drop_zero, ← hcomplete,
          List.take_length]
      refine ⟨.taken n, { s with
        secBuf := filled
        secBufPos := 0
        file := s.file ++ filled
        writes := s.writes ++ [filled] }, ?_, hn₂, rfl,
        ⟨hcomplete, Nat.zero_lt_of_lt hlt, ?_⟩, ?_⟩
      · have hsize : ¬ (filled.length : ℤ) ≠ secSize := by
          rw [hcomplete]
          exact not_not.mpr rfl
        simp only [fillSector, if_neg hpos, hassert, ← hn, hload, hcopy,
          hsector, hread, write_all hwrite, C.ok_bind, if_neg hfull,
          if_neg hsize, C.pure_eq]
      · intro b hb
        rcases List.mem_append.mp hb with hb | hb
        · exact hs.writes_dvd b hb
        · rw [List.mem_singleton.mp hb, hcomplete]
      · simp [SectorStream.accepted, hfilled]

/-- From a sector boundary on, the full sectors are written and the rest
waits. -/
theorem writeSectors_streams (hs : s.Aligned secSize) (hpos : s.secBufPos = 0)
    {n : ℕ} {buf : List UInt8} (hn : n ≤ buf.length) :
    ∃ s', writeSectors env secSize n buf s = .ok ((buf.length : ℤ), s') ∧
      s.Streams secSize (buf.drop n) s' := by
  have hbuf := hs.buf_length
  have hsize := hs.pos_lt
  set bulk := (buf.length - n) / secSize * secSize with hbulk
  have hsplit : bulk + (buf.length - n) % secSize = buf.length - n := by
    rw [hbulk, Nat.mul_comm]
    exact Nat.div_add_mod ..
  have hmod : (buf.length - n) % secSize < secSize := Nat.mod_lt _ (by omega)
  have hlen : ((buf.drop n).take bulk).length = bulk := by
    rw [List.length_take_of_le]
    rw [List.length_drop]
    omega
  have hload : loadN buf n bulk = .ok ((buf.drop n).take bulk) :=
    loadN_of_le (by omega)
  have hdvd : secSize ∣ ((buf.drop n).take bulk).length := by
    rw [hlen]
    exact Dvd.intro_left _ rfl
  have hstep := write_streams hwrite hs hpos hdvd
  rw [write_all hwrite] at hstep
  set mid : SectorStream := { s with
    file := s.file ++ (buf.drop n).take bulk
    writes := s.writes ++ [(buf.drop n).take bulk] } with hmid
  have hassert : assertThat (decide (buf.length - n - bulk < secSize))
      = .ok () := by
    rw [decide_eq_true (by omega), assertThat_true]
  have hrun : writeSectors env secSize n buf s = (do
      if buf.length - n - bulk = 0 then
        return ((buf.length : ℤ), { mid with secBufPos := buf.length - n - bulk })
      else
        let data ← loadN buf (n + bulk) (buf.length - n - bulk)
        let secBuf ← copyInto mid.secBuf 0 data
        return ((buf.length : ℤ), { mid with
          secBuf := secBuf, secBufPos := buf.length - n - bulk })) := by
    have hwritten : ¬ (((buf.drop n).take bulk).length : ℤ) ≠ (bulk : ℕ) := by
      rw [hlen]
      exact not_not.mpr rfl
    have hnonneg : ¬ (((buf.drop n).take bulk).length : ℤ) < 0 := by omega
    simp only [writeSectors, ← hbulk, hload, write_all hwrite, C.ok_bind,
      if_neg hnonneg, if_neg hwritten, hassert]
    rfl
  by_cases hrest : buf.length - n - bulk = 0
  · refine ⟨{ mid with secBufPos := 0 }, ?_,
      ⟨hbuf, Nat.zero_lt_of_lt hsize, hstep.aligned.writes_dvd⟩, ?_⟩
    · rw [hrun, if_pos hrest, hrest]
      rfl
    · have hall : (buf.drop n).take bulk = buf.drop n :=
        List.take_of_length_le (by rw [List.length_drop]; omega)
      simp [SectorStream.accepted, hpos, hmid, hall]
  · have hdata : ((buf.drop n).drop bulk).length = buf.length - n - bulk := by
      rw [List.length_drop, List.length_drop]
    have hloadRest : loadN buf (n + bulk) (buf.length - n - bulk)
        = .ok ((buf.drop n).drop bulk) := by
      rw [loadN_of_le (by omega), ← List.drop_drop, ← hdata, List.take_length]
    have hcopy : copyInto mid.secBuf 0 ((buf.drop n).drop bulk)
        = .ok ((buf.drop n).drop bulk ++
            s.secBuf.drop (buf.length - n - bulk)) := by
      rw [copyInto_of_le (by rw [hdata, hmid]; simp only; omega), hdata]
      simp [hmid]
    refine ⟨{ mid with
      secBuf := (buf.drop n).drop bulk ++ s.secBuf.drop (buf.length - n - bulk)
      secBufPos := buf.length - n - bulk }, ?_, ⟨?_, ?_, ?_⟩, ?_⟩
    · rw [hrun, if_neg hrest, hloadRest, C.ok_bind, hcopy]
      rfl
    · rw [List.length_append, hdata, List.length_drop]
      omega
    · show buf.length - n - bulk < secSize
      omega
    · exact hstep.aligned.writes_dvd
    · have htake : ((buf.drop n).drop bulk ++
          s.secBuf.drop (buf.length - n - bulk)).take (buf.length - n - bulk)
          = (buf.drop n).drop bulk := by
        rw [← hdata, List.take_left]
      simp only [SectorStream.accepted, htake, hmid, hpos, List.take_zero,
        List.append_nil, List.append_assoc, List.take_append_drop]

/-- **One call** appends its data to what was accepted and returns its
count. -/
theorem sectorWrite_streams (hsize : 1 ≤ secSize) (hmax : secSize ≤ 64 * 1024)
    (hs : s.Aligned secSize) {buf : List UInt8}
    (hcount : buf.length ≤ 1024 * 1024 * 1024) :
    ∃ s', sectorWrite env secSize buf s = .ok ((buf.length : ℤ), s') ∧
      s.Streams secSize buf s' := by
  have hsec : (if secSize = 0 then 512 else secSize) = secSize :=
    if_neg (by omega)
  unfold sectorWrite
  simp only [hsec, decide_eq_true hmax, decide_eq_true hcount, assertThat_true,
    C.ok_bind]
  by_cases hfast : s.secBufPos = 0 ∧ buf.length % secSize = 0
  · refine ⟨(s.write env buf).2, ?_,
      write_streams hwrite hs hfast.1 (Nat.dvd_of_mod_eq_zero hfast.2)⟩
    rw [if_pos hfast, write_all hwrite]
    rfl
  · rw [if_neg hfast]
    obtain ⟨flow, s₁, hfill, hflow⟩ := fillSector_streams hwrite hs buf
    rw [hfill, C.ok_bind]
    cases flow with
    | returned result =>
        obtain ⟨rfl, hstreams⟩ := hflow
        exact ⟨s₁, rfl, hstreams⟩
    | taken n =>
        obtain ⟨hn, hpos₁, hstreams⟩ := hflow
        obtain ⟨s₂, hwrites, hrest⟩ :=
          writeSectors_streams hwrite hstreams.aligned hpos₁ hn
        refine ⟨s₂, hwrites, hrest.aligned, ?_⟩
        rw [hrest.accepted_eq, hstreams.accepted_eq, List.append_assoc,
          List.take_append_drop]

end Calls

/-! ## A run of calls -/

/-- What is seen after a call: the result is the count, everything passed in
so far was accepted, and the sector buffer and the writes are as they
should. -/
structure Transparent (secSize : ℕ) (chunk passed : List UInt8) (result : ℤ)
    (s : SectorStream) : Prop where
  result_eq : result = chunk.length
  accepted_eq : s.file ++ s.secBuf.take s.secBufPos = passed
  writes_dvd : ∀ bytes ∈ s.writes, secSize ∣ bytes.length
  pos_lt : s.secBufPos < secSize

/-- Every call of a run is transparent, `passed` being what was accepted
before the first one. -/
def AllTransparent (secSize : ℕ) :
    List UInt8 → List (List UInt8) → Trace ℤ SectorStream → Prop
  | _, [], [] => True
  | passed, chunk :: chunks, (result, s) :: trace =>
      Transparent secSize chunk (passed ++ chunk) result s ∧
        AllTransparent secSize (passed ++ chunk) chunks trace
  | _, _, _ => False

/-- The calls of a run, each from the state the one before it left. -/
theorem sectorWrites_transparent {env : WriteEnv} {secSize : ℕ}
    (hwrite : ∀ before bytes, env before bytes = bytes.length)
    (hsize : 1 ≤ secSize) (hmax : secSize ≤ 64 * 1024) :
    ∀ (chunks : List (List UInt8)) (s : SectorStream),
      (∀ chunk ∈ chunks, chunk.length ≤ 1024 * 1024 * 1024) →
      s.Aligned secSize →
      ∃ trace, runAll (sectorWriteStep env secSize) chunks s = .ok trace ∧
        AllTransparent secSize s.accepted chunks trace := by
  intro chunks
  induction chunks with
  | nil => exact fun s _ _ => ⟨[], rfl, trivial⟩
  | cons chunk chunks ih =>
      intro s hcounts hs
      obtain ⟨s', hcall, hstreams⟩ := sectorWrite_streams hwrite hsize hmax hs
        (hcounts chunk List.mem_cons_self)
      obtain ⟨trace, hrun, htrace⟩ := ih s'
        (fun c hc => hcounts c (List.mem_cons_of_mem chunk hc)) hstreams.aligned
      refine ⟨((chunk.length : ℤ), s') :: trace, ?_, ⟨rfl, ?_, ?_, ?_⟩, ?_⟩
      · simp [runAll, sectorWriteStep, hcall, Trace.last, hrun]
      · exact hstreams.accepted_eq
      · exact hstreams.aligned.writes_dvd
      · exact hstreams.aligned.pos_lt
      · rw [← hstreams.accepted_eq]
        exact htrace

/-- **The override is a transparent sector-aligned stream.** For every sector
size up to 64 KB and every sequence of calls with counts of up to 1 GB,
started with an empty sector buffer over a drive that writes what it is
given, no assertion fails and no access leaves a buffer, and after each call
what was written followed by what waits in the sector buffer is all the data
passed in so far. -/
theorem sectorWrite_transparent (env : WriteEnv) (secSize : ℕ)
    (secBuf : List UInt8) (chunks : List (List UInt8))
    (hwrite : ∀ before bytes, env before bytes = bytes.length)
    (hsize : 1 ≤ secSize) (hmax : secSize ≤ 64 * 1024)
    (hbuf : secBuf.length = secSize)
    (hcounts : ∀ chunk ∈ chunks, chunk.length ≤ 1024 * 1024 * 1024) :
    ∃ trace, runAll (sectorWriteStep env secSize) chunks ⟨secBuf, 0, [], []⟩
        = .ok trace ∧
      AllTransparent secSize [] chunks trace :=
  sectorWrites_transparent hwrite hsize hmax chunks ⟨secBuf, 0, [], []⟩ hcounts
    ⟨hbuf, hsize, by simp⟩

/-- Two odd chunks over sectors of four bytes. -/
theorem sectorWrite_transparent_odd :
    ∃ trace, runAll (sectorWriteStep (fun _ bytes => bytes.length) 4)
        [[1, 2, 3], [4, 5, 6, 7, 8, 9]] ⟨[0, 0, 0, 0], 0, [], []⟩ = .ok trace ∧
      AllTransparent 4 [] [[1, 2, 3], [4, 5, 6, 7, 8, 9]] trace :=
  sectorWrite_transparent (fun _ bytes => bytes.length) 4 [0, 0, 0, 0]
    [[1, 2, 3], [4, 5, 6, 7, 8, 9]] (fun _ _ => rfl) (by decide) (by decide) rfl
    (by decide)

end Nawam
