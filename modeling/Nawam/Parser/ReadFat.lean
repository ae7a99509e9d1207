import Mathlib.Data.Nat.Prime.Basic
import Nawam.Base.Align
import Nawam.Base.Ensures
import Nawam.Base.Memory

/-!
# A FAT image on an ISO

`iso9660_readfat` of `iso.c` reads the sectors of a FAT image through a buffer
of 16 blocks of 2048 bytes. The buffer and the sector that it starts with are updated one
after the other, the sector first, around a read that may fail: from then on,
until a read succeeds, the buffer is taken for what it does not hold
(`readfat_delivers`).
-/

namespace Nawam

/-! ## Source -/

/-- The image: what there is on the ISO, and the block where the FAT image
starts. -/
structure IsoImage where
  iso : Memory
  lsn : ℕ

/-- `iso9660_readfat_private`, without the image. -/
structure ReadfatPrivate where
  /-- `sec_start` -/
  secStart : ℕ
  buf : List UInt8

/-- How a read of the ISO comes out; when it fails, something of the buffer may
have been overwritten. -/
inductive IsoAnswer where
  | done
  | failed (buf : List UInt8)

/-- A request for a sector, and how the ISO is read if it has to be. -/
structure ReadfatRequest where
  sec : UInt64
  answer : IsoAnswer

/-- `iso9660_iso_seek_read` of 16 blocks: whether it succeeded, and the buffer.
There is nothing in front of the first block. -/
def isoSeekRead (image : IsoImage) (block : ℤ) (answer : IsoAnswer) (buf : List UInt8) :
    Bool × List UInt8 :=
  match answer with
  | .done =>
      if 0 ≤ block then
        (true, slice image.iso (block.toNat * 2048) 32768)
      else (false, buf)
  | .failed buf => (false, buf)

/-- The first sector of the block that a sector is in. -/
def windowStart (secsize : ℕ) (sec : UInt64) : ℕ :=
  sec.toNat * secsize % 2 ^ 64 / 2048 * 2048 / secsize

def InWindow (secsize start : ℕ) (sec : UInt64) : Prop :=
  start ≤ sec.toNat ∧ sec.toNat < (start + 32768 / secsize) % 2 ^ 64

instance (secsize start : ℕ) (sec : UInt64) : Decidable (InWindow secsize start sec) :=
  inferInstanceAs (Decidable (_ ∧ _))

/-- `iso9660_readfat`: `none` for a return of 0. -/
def iso9660Readfat (image : IsoImage) (secsize : ℕ) (s : ReadfatPrivate) (r : ReadfatRequest) :
    C (Option (List UInt8) × ReadfatPrivate) := do
  let rest ← modulo 32768 secsize
  if rest ≠ 0 then return (none, s)
  else if InWindow secsize s.secStart r.sec then
    let data ← loadN s.buf ((r.sec.toNat - s.secStart) * secsize % 2 ^ 64) secsize
    return (some data, s)
  else
    let start := windowStart secsize r.sec
    let read := isoSeekRead image
      (toLong (image.lsn + start * secsize % 2 ^ 64 / 2048)) r.answer s.buf
    if read.1 = false then return (none, ⟨start, read.2⟩)
    else
      let data ← loadN read.2 ((r.sec.toNat + 2 ^ 64 - start) * secsize % 2 ^ 64) secsize
      return (some data, ⟨start, read.2⟩)

/-! ## What it is for -/

/-- Every request that is not answered by 0 gets the sector it is for. -/
def Delivers (image : IsoImage) (secsize : ℕ) : ReadfatPrivate → List ReadfatRequest → Prop
  | _, [] => True
  | s, r :: rs => ∃ out s', iso9660Readfat image secsize s r = .ok (out, s') ∧
      (∀ data ∈ out, data =
        slice image.iso (image.lsn * 2048 + r.sec.toNat * secsize) secsize) ∧
      Delivers image secsize s' rs

/-- The block of a sector can be given as an `lsn_t`. -/
def IsoImage.HasLsn (image : IsoImage) (secsize : ℕ) (sec : UInt64) : Prop :=
  image.lsn + sec.toNat * secsize / 2048 < 2 ^ 31

/-- No request is for a sector of a window whose read has failed, and no read
succeeds for a block that cannot be given. The window starts with a sector, and
is stale after a failed read. -/
def Avoids (image : IsoImage) (secsize : ℕ) : ℕ → Bool → List ReadfatRequest → Prop
  | _, _, [] => True
  | start, stale, r :: rs =>
      if InWindow secsize start r.sec then stale = false ∧ Avoids image secsize start stale rs
      else
        match r.answer with
        | .done => image.HasLsn secsize r.sec ∧
            Avoids image secsize (windowStart secsize r.sec) false rs
        | .failed _ => Avoids image secsize (windowStart secsize r.sec) true rs

/-! ## The window -/

section

variable {secsize : ℕ} (hdvd : secsize ∣ 32768)
include hdvd

theorem secsize_pos : 0 < secsize := Nat.pos_of_dvd_of_pos hdvd (by decide)

/-- A window starts where a sector and a block do. -/
theorem window_start {sec : UInt64} (hfits : sec.toNat * secsize < 2 ^ 64) :
    windowStart secsize sec * secsize = sec.toNat * secsize / 2048 * 2048 := by
  rw [windowStart, Nat.mod_eq_of_lt hfits]
  refine Nat.div_mul_cancel ?_
  obtain ⟨k, hk, rfl⟩ := (Nat.dvd_prime_pow Nat.prime_two).mp
    (show secsize ∣ 2 ^ 15 from hdvd)
  rcases Nat.le_total k 11 with hsmall | hlarge
  · exact Dvd.dvd.mul_left (pow_dvd_pow 2 hsmall) _
  · have hblock : 2048 ∣ sec.toNat * 2 ^ k :=
      Dvd.dvd.mul_left (pow_dvd_pow 2 hlarge) _
    rw [Nat.div_mul_cancel hblock]
    exact Nat.dvd_mul_left _ _

end

/-- The buffer holds what it is taken for, unless the window is stale. -/
structure Coherent (image : IsoImage) (secsize start : ℕ) (stale : Bool) (s : ReadfatPrivate) :
    Prop where
  start_eq : s.secStart = start
  small : stale = false → start * secsize < 2 ^ 43
  holds : stale = false → s.buf =
    slice image.iso (image.lsn * 2048 + start * secsize) 32768

/-- A window that is read holds what it is taken for. -/
theorem coherent_read (image : IsoImage) {secsize : ℕ}
    (hdvd : secsize ∣ 32768) {sec : UInt64}
    (hlsn : image.HasLsn secsize sec) (buf : List UInt8) :
    ∃ s, Coherent image secsize (windowStart secsize sec) false s ∧
      isoSeekRead image (toLong (image.lsn +
        windowStart secsize sec * secsize % 2 ^ 64 / 2048)) .done buf = (true, s.buf) ∧
      windowStart secsize sec ≤ sec.toNat ∧
      (sec.toNat - windowStart secsize sec) * secsize + secsize ≤ 32768 := by
  have hpos := secsize_pos hdvd
  have hle := Nat.le_of_dvd (by decide) hdvd
  rw [IsoImage.HasLsn] at hlsn
  obtain ⟨x, hx⟩ : ∃ x, sec.toNat * secsize = x := ⟨_, rfl⟩
  have hstart := window_start hdvd (show sec.toNat * secsize < 2 ^ 64 by omega)
  rw [hx] at hlsn hstart
  have hfloor : x / 2048 * 2048 ≤ x := Nat.div_mul_le_self _ _
  have hbefore : windowStart secsize sec ≤ sec.toNat := by
    refine Nat.le_of_mul_le_mul_right ?_ hpos
    rw [hstart, hx]
    exact hfloor
  have hblocks : windowStart secsize sec * secsize % 2 ^ 64 / 2048 = x / 2048 := by
    rw [hstart, Nat.mod_eq_of_lt (by omega), Nat.mul_div_cancel _ (by decide)]
  refine ⟨⟨windowStart secsize sec, slice image.iso
    (image.lsn * 2048 + windowStart secsize sec * secsize) 32768⟩,
    ⟨rfl, fun _ => ?_, fun _ => ?_⟩, ?_, hbefore, ?_⟩
  · omega
  · dsimp only
  · have hblock : toLong (image.lsn + x / 2048) = ((image.lsn + x / 2048 : ℕ) : ℤ) :=
      toLong_of_lt hlsn
    have hwhere : (image.lsn + x / 2048) * 2048 =
        image.lsn * 2048 + windowStart secsize sec * secsize := by
      rw [Nat.add_mul, hstart]
    rw [hblocks, hblock]
    simp only [isoSeekRead, Int.natCast_nonneg, if_true, Int.toNat_natCast, hwhere]
  · -- behind the first sector of a window the sectors are shorter than a block
    have hoffset : (sec.toNat - windowStart secsize sec) * secsize < 2048 := by
      rw [Nat.sub_mul, hx, hstart]
      omega
    rcases Nat.eq_zero_or_pos (sec.toNat - windowStart secsize sec) with hfirst | hlater
    · rw [hfirst, Nat.zero_mul, Nat.zero_add]
      exact hle
    · have hshort : secsize ≤ (sec.toNat - windowStart secsize sec) * secsize :=
        Nat.le_mul_of_pos_left secsize hlater
      omega

theorem loadN_slice (m : Memory) {start i n total : ℕ} (h : i + n ≤ total) :
    loadN (slice m start total) i n = .ok (slice m (start + i) n) := by
  obtain ⟨rest, rfl⟩ := Nat.exists_eq_add_of_le h
  rw [loadN_of_le (by simp), Nat.add_assoc, slice_append, slice_append,
    List.drop_left' (slice_length ..), List.take_left' (slice_length ..)]

/-- A sector in a window that holds what it is taken for. -/
theorem coherent_sector {image : IsoImage} {secsize start : ℕ} {sec : UInt64} {s : ReadfatPrivate}
    (hcoherent : Coherent image secsize start false s) (hle : start ≤ sec.toNat)
    (hfits : (sec.toNat - start) * secsize + secsize ≤ 32768) :
    loadN s.buf ((sec.toNat - start) * secsize) secsize =
      .ok (slice image.iso (image.lsn * 2048 + sec.toNat * secsize) secsize) := by
  have hsplit : start * secsize + (sec.toNat - start) * secsize = sec.toNat * secsize := by
    rw [← Nat.add_mul, Nat.add_sub_cancel' hle]
  rw [hcoherent.holds rfl, loadN_slice _ (by omega), Nat.add_assoc, hsplit]

/-- **A request** keeps the buffer and what it is taken for together. -/
theorem readfat_step {image : IsoImage} {secsize start : ℕ} {stale : Bool} {s : ReadfatPrivate}
    {r : ReadfatRequest} {rs : List ReadfatRequest}
    (hdvd : secsize ∣ 32768)
    (hcoherent : Coherent image secsize start stale s)
    (havoids : Avoids image secsize start stale (r :: rs)) :
    ∃ out s' start' stale', iso9660Readfat image secsize s r = .ok (out, s') ∧
      (∀ data ∈ out, data =
        slice image.iso (image.lsn * 2048 + r.sec.toNat * secsize) secsize) ∧
      Coherent image secsize start' stale' s' ∧ Avoids image secsize start' stale' rs := by
  have hpos := secsize_pos hdvd
  have hrest : modulo 32768 secsize = .ok 0 := by
    rw [modulo_of_pos hpos, Nat.mod_eq_zero_of_dvd hdvd]
  rw [Avoids] at havoids
  rw [iso9660Readfat, hrest, C.ok_bind, if_neg (by decide), hcoherent.start_eq]
  by_cases hwindow : InWindow secsize start r.sec
  · -- the buffer is not stale, or the request would not be made
    rw [if_pos hwindow] at havoids ⊢
    obtain ⟨rfl, havoids⟩ := havoids
    have hsmall := hcoherent.small rfl
    have hcount : 32768 / secsize * secsize = 32768 :=
      Nat.div_mul_cancel hdvd
    have hlt : r.sec.toNat - start + 1 ≤ 32768 / secsize := by
      have hend := (Nat.mod_le _ _).trans_lt' hwindow.2
      have := hwindow.1
      omega
    have hfits : (r.sec.toNat - start) * secsize + secsize ≤ 32768 := by
      calc (r.sec.toNat - start) * secsize + secsize = (r.sec.toNat - start + 1) * secsize := by
            rw [Nat.add_mul, Nat.one_mul]
        _ ≤ 32768 / secsize * secsize := Nat.mul_le_mul_right _ hlt
        _ = 32768 := hcount
    rw [Nat.mod_eq_of_lt (by omega), coherent_sector hcoherent hwindow.1 hfits]
    refine ⟨_, s, start, false, rfl, ?_, hcoherent, havoids⟩
    rintro data ⟨⟩
    rfl
  · rw [if_neg hwindow] at havoids ⊢
    cases hanswer : r.answer with
    | failed buf =>
        rw [hanswer] at havoids
        exact ⟨none, ⟨windowStart secsize r.sec, buf⟩, _, true, rfl, fun _ h => (nomatch h),
          ⟨rfl, nofun, nofun⟩, havoids⟩
    | done =>
        rw [hanswer] at havoids
        obtain ⟨s', hcoherent', hread, hle, hfits⟩ := coherent_read image hdvd havoids.1 s.buf
        have hindex : (r.sec.toNat + 2 ^ 64 - windowStart secsize r.sec) * secsize % 2 ^ 64 =
            (r.sec.toNat - windowStart secsize r.sec) * secsize := by
          rw [Nat.sub_add_comm hle, Nat.add_mul, Nat.mul_comm (2 ^ 64), Nat.add_mul_mod_self_right,
            Nat.mod_eq_of_lt (by omega)]
        have hstate : s' = ⟨windowStart secsize r.sec, s'.buf⟩ := by
          rw [← hcoherent'.start_eq]
        simp only [hread, hindex, Bool.true_eq_false, if_false]
        rw [coherent_sector hcoherent' hle hfits]
        refine ⟨_, _, _, false, rfl, ?_, hstate ▸ hcoherent', havoids.2⟩
        rintro data ⟨⟩
        rfl

theorem readfat_run {image : IsoImage} {secsize : ℕ}
    (hdvd : secsize ∣ 32768) : ∀ {rs : List ReadfatRequest} {start : ℕ}
    {stale : Bool} {s : ReadfatPrivate}, Coherent image secsize start stale s →
      Avoids image secsize start stale rs → Delivers image secsize s rs := by
  intro rs
  induction rs with
  | nil => exact fun _ _ => trivial
  | cons r rs ih =>
      intro start stale s hcoherent havoids
      obtain ⟨out, s', start', stale', hcall, hout, hcoherent', havoids'⟩ :=
        readfat_step hdvd hcoherent havoids
      exact ⟨out, s', hcall, hout, ih hcoherent' havoids'⟩

/-- Every call gets the sector that it is for, in a run from the buffer that the
callers fill at the start of the image: with a sector size that divides the size
of the buffer, whatever the reads come to, as long as no request falls into the
window of a read that has failed. -/
theorem readfat_delivers (image : IsoImage) (secsize : ℕ) (rs : List ReadfatRequest)
    (hdvd : secsize ∣ 32768) (havoids : Avoids image secsize 0 false rs) :
    Delivers image secsize ⟨0, slice image.iso (image.lsn * 2048) 32768⟩ rs := by
  refine readfat_run hdvd ⟨rfl, fun _ => ?_, fun _ => ?_⟩ havoids
  · rw [Nat.zero_mul]
    decide
  · rw [Nat.zero_mul, Nat.add_zero]

/-- Two sectors, of the first window and of another one. -/
theorem readfat_delivers_two : Delivers ⟨fun _ => 0, 20⟩ 512
    ⟨0, slice (fun _ => 0) (20 * 2048) 32768⟩ [⟨3, .done⟩, ⟨100, .done⟩] := by
  refine readfat_delivers ⟨fun _ => 0, 20⟩ 512 [⟨3, .done⟩, ⟨100, .done⟩] (by decide) ?_
  rw [Avoids, if_pos (by decide)]
  refine ⟨rfl, ?_⟩
  rw [Avoids, if_neg (by decide)]
  have hlsn : 20 + (100 : UInt64).toNat * 512 / 2048 < 2 ^ 31 := by decide
  exact ⟨hlsn, trivial⟩

/-- An ISO whose first 16 blocks differ from the others. -/
def twoWindows : Memory := fun n => if n < 32768 then 1 else 2

/-- A request whose read fails, and the same one again: it gets the first sector
of the image. -/
theorem readfat_stale : ∃ s, iso9660Readfat ⟨twoWindows, 0⟩ 512 ⟨0, slice twoWindows 0 32768⟩
      ⟨64, .failed (slice twoWindows 0 32768)⟩ = .ok (none, s) ∧
    iso9660Readfat ⟨twoWindows, 0⟩ 512 s ⟨64, .done⟩ = .ok (some (slice twoWindows 0 512), s) ∧
    ¬Delivers ⟨twoWindows, 0⟩ 512 ⟨0, slice twoWindows 0 32768⟩
      [⟨64, .failed (slice twoWindows 0 32768)⟩, ⟨64, .done⟩] := by
  have hrest : modulo 32768 512 = .ok 0 := rfl
  have hmiss : ∀ buf buf', iso9660Readfat ⟨twoWindows, 0⟩ 512 ⟨0, buf⟩ ⟨64, .failed buf'⟩ =
      .ok (none, ⟨64, buf'⟩) := by
    intro buf buf'
    have hstart : windowStart 512 64 = 64 := by decide
    have hout : ¬InWindow 512 0 64 := by decide
    rw [iso9660Readfat, hrest, C.ok_bind, if_neg (by decide), if_neg hout, hstart]
    rfl
  have hfirst := hmiss (slice twoWindows 0 32768) (slice twoWindows 0 32768)
  have hagain : iso9660Readfat ⟨twoWindows, 0⟩ 512 ⟨64, slice twoWindows 0 32768⟩ ⟨64, .done⟩ =
      .ok (some (slice twoWindows 0 512), ⟨64, slice twoWindows 0 32768⟩) := by
    have hload : loadN (slice twoWindows 0 32768) (((64 : UInt64).toNat - 64) * 512 % 2 ^ 64) 512 =
        .ok (slice twoWindows 0 512) := loadN_slice twoWindows (by decide)
    rw [iso9660Readfat, hrest, C.ok_bind, if_neg (by decide), if_pos (by decide), hload]
    rfl
  refine ⟨_, hfirst, hagain, ?_⟩
  rintro ⟨out, s, hcall, -, out', s', hcall', hdata, -⟩
  obtain ⟨-, rfl⟩ := Prod.mk.inj (Except.ok.inj (hfirst.symm.trans hcall))
  obtain ⟨rfl, -⟩ := Prod.mk.inj (Except.ok.inj (hagain.symm.trans hcall'))
  have hsame := slice_eq_iff.mp (hdata _ rfl) 0 (by decide)
  exact absurd hsame (by decide)

end Nawam
