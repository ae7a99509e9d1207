import Nawam.Base.Ensures
import Nawam.Format.SectorWrite

/-!
# Short writes under the override

What the caller of `sector_write` learns of a `_write` that fails or writes
less than it was asked to. The caller compares the result with its count, so
the result has to be below the count then. Of the up to two writes of a call
the second one is accounted for. The first one, of the sector that the data
completes, is not: its raw result is returned, and that is a number of bytes
of the sector, of which the caller may have passed only a few.
-/

namespace Nawam

/-- The sector size in use: 512 where none is known. -/
def sectorBytes (sectorSize : ℕ) : ℕ := if sectorSize = 0 then 512 else sectorSize

/-- Some `_write` between `s` and `s'` failed or wrote fewer bytes than
asked. -/
def FellShort (env : WriteEnv) (s s' : SectorStream) : Prop :=
  ∃ before bytes, s.writes <+: before ∧ before ++ [bytes] <+: s'.writes ∧
    env before bytes < bytes.length

/-- A call from `s` with `count` bytes tells the truth: its result is never
above the count, and below it if a write fell short. A failed assertion
returns -1, which is below every count. -/
def Honest (env : WriteEnv) (count : ℕ) (s : SectorStream)
    (call : C (ℤ × SectorStream)) : Prop :=
  Ensures call fun r => r.1 ≤ count ∧ (FellShort env s r.2 → r.1 < count)

/-- The sector that waits, completed by the first bytes of `buf`. -/
def completedSector (secSize : ℕ) (buf : List UInt8) (s : SectorStream) :
    List UInt8 :=
  s.secBuf.take s.secBufPos ++ buf.take (secSize - s.secBufPos)

/-- The call gets to write a sector that waited for the bytes of `buf`. -/
structure Completes (secSize : ℕ) (buf : List UInt8) (s : SectorStream) :
    Prop where
  size_le : secSize ≤ 64 * 1024
  count_le : buf.length ≤ 1024 * 1024 * 1024
  waiting : 0 < s.secBufPos
  pos_le : s.secBufPos ≤ secSize
  filled : secSize ≤ s.secBufPos + buf.length
  room : secSize ≤ s.secBuf.length

/-- The completed sector is written short, and yet as many bytes of it as the
caller passed. -/
structure Masked (env : WriteEnv) (secSize : ℕ) (buf : List UInt8)
    (s : SectorStream) : Prop extends Completes secSize buf s where
  short : env s.writes (completedSector secSize buf s) < secSize
  count_le_written : buf.length ≤ env s.writes (completedSector secSize buf s)

/-! ## Which writes fell short -/

section FellShort

variable {env : WriteEnv} {s s' s'' : SectorStream}

theorem not_fellShort (h : s'.writes = s.writes) : ¬FellShort env s s' := by
  rintro ⟨before, bytes, hprefix, hwritten, -⟩
  rw [h] at hwritten
  have h₁ := hprefix.length_le
  have h₂ := hwritten.length_le
  rw [List.length_append, List.length_singleton] at h₂
  omega

theorem fellShort_write {bytes : List UInt8} (hs : s.writes <+: s'.writes)
    (hwrites : s''.writes = s'.writes ++ [bytes]) :
    FellShort env s s'' ↔
      FellShort env s s' ∨ env s'.writes bytes < bytes.length := by
  constructor
  · rintro ⟨before, b, hprefix, hwritten, hshort⟩
    rw [hwrites] at hwritten
    rcases List.prefix_concat_iff.mp hwritten with heq | hearlier
    · obtain ⟨hbefore, hlast⟩ := List.append_inj' heq rfl
      rw [hbefore, List.singleton_inj.mp hlast] at hshort
      exact .inr hshort
    · exact .inl ⟨before, b, hprefix, hearlier, hshort⟩
  · rintro (⟨before, b, hprefix, hwritten, hshort⟩ | hshort)
    · refine ⟨before, b, hprefix, hwritten.trans ?_, hshort⟩
      rw [hwrites]
      exact List.prefix_append _ _
    · refine ⟨s'.writes, bytes, hs, ?_, hshort⟩
      rw [hwrites]

theorem fellShort_once {bytes : List UInt8}
    (hwrites : s'.writes = s.writes ++ [bytes]) :
    FellShort env s s' ↔ env s.writes bytes < bytes.length := by
  rw [fellShort_write (List.prefix_refl _) hwrites,
    or_iff_right (not_fellShort rfl)]

end FellShort

/-! ## The two parts of the function -/

section Parts

variable {env : WriteEnv} {secSize : ℕ} {buf : List UInt8} {s : SectorStream}

def afterCompleted (env : WriteEnv) (secSize : ℕ) (buf : List UInt8)
    (s : SectorStream) : SectorStream :=
  ({ s with
      secBuf := completedSector secSize buf s ++ s.secBuf.drop secSize
      secBufPos := 0 }.write env (completedSector secSize buf s)).2

theorem completedSector_length (h : Completes secSize buf s) :
    (completedSector secSize buf s).length = secSize := by
  have hpos := h.pos_le
  have hfilled := h.filled
  have hroom := h.room
  rw [completedSector, List.length_append, List.length_take_of_le (by omega),
    List.length_take_of_le (by omega)]
  omega

/-- The sector is completed and written, and the function goes on only if all
of it was. -/
theorem fillSector_completes (h : Completes secSize buf s) :
    fillSector env secSize buf s =
      .ok (if env s.writes (completedSector secSize buf s) ≠ secSize
          then .returned (env s.writes (completedSector secSize buf s))
          else .taken (secSize - s.secBufPos),
        afterCompleted env secSize buf s) := by
  have hwait := h.waiting
  have hpos := h.pos_le
  have hfilled := h.filled
  have hroom := h.room
  have hlen := completedSector_length h
  have hmin : min (secSize - s.secBufPos) buf.length = secSize - s.secBufPos :=
    Nat.min_eq_left (by omega)
  have hload : loadN buf 0 (secSize - s.secBufPos)
      = .ok (buf.take (secSize - s.secBufPos)) := loadN_of_le (by omega)
  have htaken : (buf.take (secSize - s.secBufPos)).length
      = secSize - s.secBufPos := List.length_take_of_le (by omega)
  have hend : s.secBufPos + (secSize - s.secBufPos) = secSize := by omega
  have hcopy : copyInto s.secBuf s.secBufPos (buf.take (secSize - s.secBufPos))
      = .ok (completedSector secSize buf s ++ s.secBuf.drop secSize) := by
    rw [copyInto_of_le (by omega), htaken, hend, completedSector,
      List.append_assoc]
  have hread : loadN (completedSector secSize buf s ++ s.secBuf.drop secSize)
      0 secSize = .ok (completedSector secSize buf s) := by
    rw [loadN_of_le (by rw [List.length_append]; omega), List.drop_zero,
      List.take_append_of_le_length hlen.ge, List.take_of_length_le hlen.le]
  simp only [fillSector, if_neg hwait.ne', decide_eq_true hpos, assertThat_true,
    hmin, hload, hcopy, hend, hread, C.ok_bind, lt_irrefl, if_false,
    SectorStream.write, C.pure_eq, afterCompleted]
  split
  case isTrue => rfl
  case isFalse => rfl

/-- Where no sector is completed nothing is written: all of the data waits
now, or none of it is taken. -/
theorem fillSector_waits (hsize : secSize ≤ 64 * 1024)
    (hcount : buf.length ≤ 1024 * 1024 * 1024) (h : ¬Completes secSize buf s) :
    Ensures (fillSector env secSize buf s) fun r =>
      r.2.writes = s.writes ∧
        (r.1 = .returned buf.length ∨ r.1 = .taken 0 ∧ r.2 = s) := by
  unfold fillSector
  refine .ite (fun _ => .pure ⟨rfl, .inr ⟨rfl, rfl⟩⟩) fun hpos => ?_
  refine .assertThat fun hle => .bind_eq fun data hload =>
    .bind_eq fun secBuf hcopy => ?_
  have hle := of_decide_eq_true hle
  refine .ite (fun _ => .pure ⟨rfl, .inl rfl⟩) fun hfull => ?_
  -- a sector that is complete can only fail to be read out of its buffer
  refine .bind_eq fun sector hread => ?_
  have hroom : secSize ≤ s.secBuf.length := by
    rw [← copyInto_length _ _ _ secBuf hcopy]
    simpa using (loadN_ensures _ _ _ sector hread).1
  exact absurd ⟨hsize, hcount, Nat.pos_of_ne_zero hpos, hle, by omega, hroom⟩ h

/-- The rest of the function tells the truth about itself: what is written of
the full sectors is part of the data. -/
theorem writeSectors_honest (henv : ∀ before bytes, env before bytes ≤ bytes.length)
    {s₀ : SectorStream} (hs : s₀.writes <+: s.writes) (hbefore : ¬FellShort env s₀ s)
    {n : ℕ} (hn : n ≤ buf.length) :
    Honest env buf.length s₀ (writeSectors env secSize n buf s) := by
  unfold writeSectors
  refine .bind_eq fun bulk hload => ?_
  have hlen : bulk.length = (buf.length - n) / secSize * secSize :=
    (loadN_ensures _ _ _ bulk hload).2
  have hle : (buf.length - n) / secSize * secSize ≤ buf.length - n :=
    Nat.div_mul_le_self ..
  have hwritten := henv s.writes bulk
  simp only [SectorStream.write]
  refine .ite (fun hneg => .pure ⟨?_, fun _ => ?_⟩) fun hneg =>
    .ite (fun hpart => .assertThat fun _ => .pure ⟨?_, fun _ => ?_⟩) fun hfull => ?_
  · show env s.writes bulk ≤ _
    omega
  · show env s.writes bulk < _
    omega
  · show (n : ℤ) + env s.writes bulk ≤ _
    omega
  · show (n : ℤ) + env s.writes bulk < _
    omega
  · -- all full sectors are written
    have htrue : ∀ s' : SectorStream, s'.writes = s.writes ++ [bulk] →
        ¬FellShort env s₀ s' := by
      intro s' hs' hshort
      rw [fellShort_write hs hs', or_iff_right hbefore] at hshort
      omega
    refine .assertThat fun _ => .ite (fun _ => .pure ⟨le_rfl, fun hshort => ?_⟩)
      fun _ => .bind_eq fun _ _ => .bind_eq fun _ _ => .pure ⟨le_rfl, fun hshort => ?_⟩
    · exact absurd hshort (htrue _ rfl)
    · exact absurd hshort (htrue _ rfl)

end Parts

/-! ## The call -/

section Calls

variable {env : WriteEnv} {sectorSize : ℕ} {buf : List UInt8} {s : SectorStream}

/-- Where no sector is completed, the only write is of bytes of the caller. -/
theorem sectorWrite_honest_of_waits
    (henv : ∀ before bytes, env before bytes ≤ bytes.length)
    (h : ¬Completes (sectorBytes sectorSize) buf s) :
    Honest env buf.length s (sectorWrite env sectorSize buf s) := by
  refine .assertThat fun hsize => .assertThat fun hcount => .ite (fun _ => ?_) fun _ => ?_
  · refine .pure ⟨henv s.writes buf, fun hshort => ?_⟩
    rwa [fellShort_once rfl] at hshort
  · refine (fillSector_waits (of_decide_eq_true hsize) (of_decide_eq_true hcount)
      h).bind fun r hr => ?_
    obtain ⟨flow, s'⟩ := r
    obtain ⟨hwrites, rfl | ⟨rfl, rfl⟩⟩ := hr
    · exact .pure ⟨le_rfl, fun hshort => absurd hshort (not_fellShort hwrites)⟩
    · exact writeSectors_honest henv (List.prefix_refl _) (not_fellShort rfl)
        (Nat.zero_le _)

/-- Where a sector is completed, the raw result of its write is returned
unless all of it was written. -/
theorem sectorWrite_completes (h : Completes (sectorBytes sectorSize) buf s) :
    sectorWrite env sectorSize buf s =
      if env s.writes (completedSector (sectorBytes sectorSize) buf s)
          ≠ sectorBytes sectorSize then
        .ok (env s.writes (completedSector (sectorBytes sectorSize) buf s),
          afterCompleted env (sectorBytes sectorSize) buf s)
      else writeSectors env (sectorBytes sectorSize)
        (sectorBytes sectorSize - s.secBufPos) buf
        (afterCompleted env (sectorBytes sectorSize) buf s) := by
  have hfast : ¬(s.secBufPos = 0 ∧ buf.length % sectorBytes sectorSize = 0) :=
    fun hfast => h.waiting.ne' hfast.1
  have hfill : fillSector env (sectorBytes sectorSize) buf s = _ :=
    fillSector_completes h
  have hsize := decide_eq_true h.size_le
  have hcount := decide_eq_true h.count_le
  unfold sectorWrite
  rw [← sectorBytes]
  simp only [hsize, hcount, assertThat_true, C.ok_bind, if_neg hfast, hfill]
  by_cases hpart : env s.writes (completedSector (sectorBytes sectorSize) buf s)
      ≠ sectorBytes sectorSize
  · simp only [if_pos hpart, C.pure_eq]
  · simp only [if_neg hpart]

/-- **When a short write is told.** For every state, data and sector size and
whatever `_write` returns, short of more than it was given: the result of
`sector_write` is never above the count, and below it if a write fell short,
exactly unless the completed sector is written short and still for as many
bytes as the caller passed. -/
theorem sectorWrite_honest_iff (env : WriteEnv) (sectorSize : ℕ)
    (buf : List UInt8) (s : SectorStream)
    (henv : ∀ before bytes, env before bytes ≤ bytes.length) :
    Honest env buf.length s (sectorWrite env sectorSize buf s) ↔
      ¬Masked env (sectorBytes sectorSize) buf s := by
  by_cases h : Completes (sectorBytes sectorSize) buf s
  · have hlen := completedSector_length h
    have hwritten := henv s.writes (completedSector (sectorBytes sectorSize) buf s)
    rw [sectorWrite_completes h]
    constructor
    · intro hhonest hmasked
      rw [if_pos hmasked.short.ne] at hhonest
      have hshort : FellShort env s (afterCompleted env (sectorBytes sectorSize) buf s) := by
        rw [fellShort_once rfl, hlen]
        exact hmasked.short
      have hbelow := (hhonest _ rfl).2 hshort
      exact absurd hmasked.count_le_written hbelow.not_ge
    · intro hmasked
      refine .ite (fun hpart => ?_) fun hfull => ?_
      · -- the sector is written short, of fewer bytes than the caller passed
        have hbelow : env s.writes (completedSector (sectorBytes sectorSize) buf s)
            < buf.length := by
          by_contra hle
          exact hmasked ⟨h, by omega, by omega⟩
        exact .ok ⟨hbelow.le, fun _ => hbelow⟩
      · refine writeSectors_honest henv (List.prefix_append _ _) ?_ ?_
        · rw [fellShort_once rfl, hlen]
          omega
        · have hfilled := h.filled
          omega
  · exact iff_of_true (sectorWrite_honest_of_waits henv h) fun hmasked =>
      h hmasked.toCompletes

/-- A full sector of 512 bytes is written whole. -/
theorem sectorWrite_honest_iff_whole :
    Honest (fun _ bytes => bytes.length) [1].length ⟨List.replicate 512 0, 511, [], []⟩
        (sectorWrite (fun _ bytes => bytes.length) 512 [1]
          ⟨List.replicate 512 0, 511, [], []⟩) ↔
      ¬Masked (fun _ bytes => bytes.length) (sectorBytes 512) [1]
        ⟨List.replicate 512 0, 511, [], []⟩ :=
  sectorWrite_honest_iff _ 512 [1] _ fun _ _ => le_rfl

/-- 511 bytes wait, one more is passed, and 100 of the 512 are written: the
caller is told that 100 of its 1 bytes were. -/
theorem sectorWrite_masks :
    ¬∀ (env : WriteEnv) (sectorSize : ℕ) (buf : List UInt8) (s : SectorStream),
      (∀ before bytes, env before bytes ≤ bytes.length) →
      Honest env buf.length s (sectorWrite env sectorSize buf s) := by
  intro h
  have hcompletes : Completes (sectorBytes 512) [1]
      ⟨List.replicate 512 0, 511, [], []⟩ :=
    ⟨by decide, by decide, by decide, by decide, by decide,
      le_of_eq List.length_replicate.symm⟩
  have hlen := completedSector_length hcompletes
  have hhonest := h (fun _ bytes => min bytes.length 100) 512 [1]
    ⟨List.replicate 512 0, 511, [], []⟩ fun _ bytes => by omega
  rw [sectorWrite_completes hcompletes, hlen, if_pos (by decide)] at hhonest
  exact absurd (hhonest _ rfl).1 (by decide)

end Calls

end Nawam
