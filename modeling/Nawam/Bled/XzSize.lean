import Nawam.Base.Achieves
import Nawam.Bled.Reader
import Nawam.Safety.Guards

/-!
# The size of an xz file

An xz file is one or more streams, each with an index of its blocks behind them, and a
footer. `get_uncompress_size_xz` finds the index from the end of the file and adds up the
sizes in it. It stops there: the streams before the last one are not looked at.

Whatever the file has, the walk over the index ends and reads nothing outside of it. Each
record takes two bytes of the index at least, so the number of records in it cannot keep
the loop going.
-/

namespace Nawam

/-! ## Source -/

/-- The loop of `xz_read_vli`. A group is shifted by 56 bits at most. -/
def xzReadVliLoop (buf : List UInt8) (bufLen : ℕ) :
    (fuel pos val shift : ℕ) → C (ℕ × ℕ)
  | 0, _, _, _ => .error .outOfFuel
  | fuel + 1, pos, val, shift =>
      if bufLen ≤ pos then .ok (uint64Max, pos) -- truncated
      else if 63 ≤ shift then .ok (uint64Max, pos) -- overlong
      else do
        let b ← load buf pos
        let val := val ||| (b.toNat &&& 0x7F) <<< shift
        if b.toNat &&& 0x80 = 0 then return (val, pos + 1)
        else xzReadVliLoop buf bufLen fuel (pos + 1) val (shift + 7)

/-- `xz_read_vli`: the value, or `UINT64_MAX` on error, and the position behind it -/
def xzReadVli (buf : List UInt8) (bufLen pos : ℕ) : C (ℕ × ℕ) :=
  xzReadVliLoop buf bufLen 10 pos 0 0

def xzRecords (buf : List UInt8) (numRecords : ℕ) : (fuel r total pos : ℕ) → C ℤ
  | 0, _, _, _ => .error .outOfFuel
  | fuel + 1, r, total, pos =>
      if r < numRecords then do
        let (unpadded, pos) ← xzReadVli buf buf.length pos
        if unpadded = uint64Max ∨ unpadded = 0 then return decompSizeError
        else
          let (uncomp, pos) ← xzReadVli buf buf.length pos
          if uncomp = uint64Max then return decompSizeError
          else xzRecords buf numRecords fuel (r + 1) ((total + uncomp) % 2 ^ 64) pos
      else return asInt64 total

def xzParseIndex (indexBuf : List UInt8) : C ℤ := do
  let indicator ← load indexBuf 0
  if indicator ≠ 0x00 then return decompSizeError
  else
    let (numRecords, pos) ← xzReadVli indexBuf indexBuf.length 1
    if numRecords = uint64Max ∨ numRecords = 0 then return decompSizeError
    else xzRecords indexBuf numRecords (indexBuf.length + 1) 0 0 pos

/-- `XZ_MAGIC_0` to `XZ_MAGIC_5` -/
def xzMagic : List UInt8 := [0xFD, 0x37, 0x7A, 0x58, 0x5A, 0x00]

abbrev xzStreamFooterSize : ℕ := 12

/-- Verify Stream Header magic, Read Stream Footer and Read Index block -/
def xzReadIndex (file : List UInt8) : Option (List UInt8) := do
  let pos ← lseek 0 0
  let (hdrMagic, _) ← readExact file 6 pos
  if hdrMagic ≠ xzMagic then none
  else
    let pos ← lseek file.length (-xzStreamFooterSize)
    let (footer, _) ← readExact file xzStreamFooterSize pos
    if Extent.slice footer (10, 2) ≠ [0x59, 0x5A] then none
    else
      let indexSize := (getLe 4 footer 4 + 1) * 4
      let pos ← lseek file.length (-xzStreamFooterSize - indexSize)
      let (indexBuf, _) ← readExact file indexSize pos
      some indexBuf

def getUncompressSizeXz (file : List UInt8) : C ℤ :=
  match xzReadIndex file with
  | none => .ok decompSizeError
  | some indexBuf => xzParseIndex indexBuf

/-! ## The format -/

/-- A number in groups of seven bits, the lowest first -/
def vliBytes (v : ℕ) : List UInt8 :=
  if v < 128 then [UInt8.ofNat v] else UInt8.ofNat (128 + v % 128) :: vliBytes (v / 128)
termination_by v
decreasing_by omega

/-- A record of the index: the size of a block, and what it decompresses to -/
structure XzRecord where
  unpadded : ℕ
  uncomp : ℕ
  unpadded_pos : 0 < unpadded
  unpadded_lt : unpadded < 2 ^ 63
  uncomp_lt : uncomp < 2 ^ 63

def XzRecord.bytes (r : XzRecord) : List UInt8 := vliBytes r.unpadded ++ vliBytes r.uncomp

/-- The index, up to its padding -/
def indexFront (records : List XzRecord) : List UInt8 :=
  0x00 :: (vliBytes records.length ++ records.flatMap XzRecord.bytes)

/-- The index, filled up to a multiple of four bytes, with its check -/
def indexBytes (records : List XzRecord) (crc : List UInt8) : List UInt8 :=
  indexFront records ++ (List.replicate ((4 - (indexFront records).length % 4) % 4) 0x00 ++ crc)

/-- A stream. The footer has the size of the index. -/
structure XzStream where
  flags : List UInt8
  headerCrc : List UInt8
  blocks : List UInt8
  records : List XzRecord
  indexCrc : List UInt8
  footerCrc : List UInt8
  records_ne : records ≠ []
  flags_length : flags.length = 2
  headerCrc_length : headerCrc.length = 4
  indexCrc_length : indexCrc.length = 4
  footerCrc_length : footerCrc.length = 4
  index_fits : (indexBytes records indexCrc).length ≤ 2 ^ 34

namespace XzStream

def index (s : XzStream) : List UInt8 := indexBytes s.records s.indexCrc

def footer (s : XzStream) : List UInt8 :=
  s.footerCrc ++ (leBytes 4 (s.index.length / 4 - 1) ++ (s.flags ++ [0x59, 0x5A]))

def bytes (s : XzStream) : List UInt8 :=
  xzMagic ++ (s.flags ++ s.headerCrc ++ s.blocks ++ (s.index ++ s.footer))

/-- What the blocks of the stream decompress to -/
def size (s : XzStream) : ℕ := (s.records.map XzRecord.uncomp).sum

end XzStream

/-! ## The walk over an index ends -/

section

variable {buf : List UInt8}

/-- No more than ten turns; the position moves on where a number is read. -/
theorem xzReadVliLoop_achieves : ∀ {fuel pos val shift : ℕ}, shift + 7 * fuel = 63 →
    pos ≤ buf.length →
    Achieves (xzReadVliLoop buf buf.length (fuel + 1) pos val shift) fun r =>
      pos ≤ r.2 ∧ r.2 ≤ buf.length ∧ (r.1 ≠ uint64Max → pos < r.2) := by
  intro fuel
  induction fuel with
  | zero =>
      intro pos val shift hshift hpos
      have hfull : 63 ≤ shift := by omega
      rw [xzReadVliLoop, if_pos hfull, ite_self]
      exact .ok ⟨le_rfl, hpos, fun h => absurd rfl h⟩
  | succ fuel ih =>
      intro pos val shift hshift hpos
      have hroom : ¬63 ≤ shift := by omega
      rw [xzReadVliLoop, if_neg hroom]
      refine .ite (fun _ => .ok ⟨le_rfl, hpos, fun h => absurd rfl h⟩) fun hlt => ?_
      refine (Achieves.load (Nat.lt_of_not_le hlt)).bind fun b _ => ?_
      refine .ite (fun _ => .pure ⟨by omega, by omega, fun _ => Nat.lt_succ_self pos⟩) fun _ => ?_
      refine (ih (by omega) (by omega)).mono fun r hr => ?_
      exact ⟨by omega, hr.2.1, fun _ => by omega⟩

theorem xzReadVli_achieves {pos : ℕ} (h : pos ≤ buf.length) :
    Achieves (xzReadVli buf buf.length pos) fun r =>
      pos ≤ r.2 ∧ r.2 ≤ buf.length ∧ (r.1 ≠ uint64Max → pos < r.2) :=
  xzReadVliLoop_achieves rfl h

/-- Each record moves the position on, so that there are fewer of them than bytes. -/
theorem xzRecords_achieves {numRecords : ℕ} : ∀ {fuel r total pos : ℕ},
    pos ≤ buf.length → buf.length < pos + fuel →
    Achieves (xzRecords buf numRecords fuel r total pos) fun _ => True := by
  intro fuel
  induction fuel with
  | zero => omega
  | succ fuel ih =>
      intro r total pos hpos hfuel
      rw [xzRecords]
      refine .ite (fun _ => ?_) fun _ => .pure trivial
      refine (xzReadVli_achieves hpos).bind fun unpadded hunpadded => ?_
      refine .ite (fun _ => .pure trivial) fun hvalue => ?_
      have hmoved := hunpadded.2.2 fun h => hvalue (Or.inl h)
      refine (xzReadVli_achieves hunpadded.2.1).bind fun uncomp huncomp => ?_
      refine .ite (fun _ => .pure trivial) fun _ => ?_
      exact ih huncomp.2.1 (by omega)

theorem xzParseIndex_achieves (h : 0 < buf.length) :
    Achieves (xzParseIndex buf) fun _ => True := by
  rw [xzParseIndex]
  refine (Achieves.load h).bind fun indicator _ => ?_
  refine .ite (fun _ => .pure trivial) fun _ => ?_
  refine (xzReadVli_achieves h).bind fun numRecords hpos => ?_
  refine .ite (fun _ => .pure trivial) fun _ => ?_
  exact xzRecords_achieves hpos.2.1 (by omega)

end

theorem readExact_length {file bs : List UInt8} {n pos pos' : ℕ}
    (h : readExact file n pos = some (bs, pos')) : bs.length = n := by
  rw [readExact_eq] at h
  split at h
  case isFalse => cases h
  case isTrue hread =>
      cases h
      rw [slice_length_min]
      omega

theorem xzReadIndex_pos {file indexBuf : List UInt8} (h : xzReadIndex file = some indexBuf) :
    0 < indexBuf.length := by
  simp only [xzReadIndex, Option.bind_eq_bind, Option.bind_eq_some_iff] at h
  obtain ⟨_, -, _, -, h⟩ := h
  split at h
  case isTrue => cases h
  case isFalse =>
      simp only [Option.bind_eq_some_iff] at h
      obtain ⟨_, -, _, -, h⟩ := h
      split at h
      case isTrue => cases h
      case isFalse =>
          simp only [Option.bind_eq_some_iff] at h
          obtain ⟨_, -, r, hr, h⟩ := h
          cases h
          rw [readExact_length hr]
          exact Nat.mul_pos (Nat.succ_pos _) (by decide)

/-- For every content there is a result, and no access outside of the index. -/
theorem getUncompressSizeXz_achieves (file : List UInt8) :
    Achieves (getUncompressSizeXz file) fun _ => True := by
  rw [getUncompressSizeXz]
  cases hindex : xzReadIndex file with
  | none => exact .ok trivial
  | some indexBuf => exact xzParseIndex_achieves (xzReadIndex_pos hindex)

/-! ## What is read of an index -/

section

variable {buf rest : List UInt8}

theorem vliBytes_of_lt {v : ℕ} (h : v < 128) : vliBytes v = [UInt8.ofNat v] := by
  rw [vliBytes, if_pos h]

theorem vliBytes_of_le {v : ℕ} (h : 128 ≤ v) :
    vliBytes v = UInt8.ofNat (128 + v % 128) :: vliBytes (v / 128) := by
  rw [vliBytes, if_neg (Nat.not_lt.mpr h)]

theorem vliBytes_length_pos (v : ℕ) : 0 < (vliBytes v).length := by
  rw [vliBytes]
  split <;> exact Nat.succ_pos _

/-- The low seven bits, and bit 8, of an octet -/
theorem octet_bits {n : ℕ} (h : n < 256) :
    n &&& 0x7F = n % 128 ∧ (n &&& 0x80 = 0 ↔ n < 128) := by
  have hbit := and_two_pow_eq_zero_iff n 7
  refine ⟨Nat.and_two_pow_sub_one_eq_mod n 7, hbit.trans ?_⟩
  omega

/-- A number is read to its last group, from any group on. -/
theorem xzReadVliLoop_vli : ∀ (fuel : ℕ) {v pos : ℕ} (val : ℕ) {shift : ℕ}, shift + 7 * fuel = 63 →
    v < 128 ^ fuel → val < 2 ^ shift → 0 < fuel → buf.drop pos = vliBytes v ++ rest →
    xzReadVliLoop buf buf.length (fuel + 1) pos val shift =
      .ok (val + v * 2 ^ shift, pos + (vliBytes v).length) := by
  intro fuel
  induction fuel with
  | zero => omega
  | succ fuel ih =>
      intro v pos val shift hshift hv hval _ hdrop
      have hroom : ¬63 ≤ shift := by omega
      rcases Nat.lt_or_ge v 128 with hsmall | hlarge
      · rw [vliBytes_of_lt hsmall] at hdrop ⊢
        obtain ⟨hlt, hload, -⟩ := load_of_drop hdrop
        have hbyte : (UInt8.ofNat v).toNat = v := toNat_ofNat_of_lt (by omega)
        obtain ⟨hlow, hlast⟩ := octet_bits (show v < 256 by omega)
        rw [xzReadVliLoop, if_neg (Nat.not_le.mpr hlt), if_neg hroom, hload, C.ok_bind, hbyte,
          if_pos (hlast.mpr hsmall), hlow, Nat.mod_eq_of_lt hsmall, or_shiftLeft hval]
        rfl
      · rw [vliBytes_of_le hlarge] at hdrop ⊢
        obtain ⟨hlt, hload, hnext⟩ := load_of_drop hdrop
        have hbyte : (UInt8.ofNat (128 + v % 128)).toNat = 128 + v % 128 :=
          toNat_ofNat_of_lt (by omega)
        obtain ⟨hlow, hlast⟩ := octet_bits (show 128 + v % 128 < 256 by omega)
        have hgroup : (128 + v % 128) % 128 = v % 128 := by omega
        have hpow : 2 ^ (shift + 7) = 128 * 2 ^ shift := by
          rw [Nat.pow_add, Nat.mul_comm]
        have hdiv : v / 128 < 128 ^ fuel := by
          rw [Nat.div_lt_iff_lt_mul (by decide), ← Nat.pow_succ]
          exact hv
        have hfuel : 0 < fuel := by
          rcases Nat.eq_zero_or_pos fuel with rfl | hpos
          · omega
          · exact hpos
        have hval' : val + v % 128 * 2 ^ shift < 2 ^ (shift + 7) := by
          have hle : v % 128 * 2 ^ shift ≤ 127 * 2 ^ shift := Nat.mul_le_mul_right _ (by omega)
          omega
        have hvalue : val + v % 128 * 2 ^ shift + v / 128 * 2 ^ (shift + 7) =
            val + v * 2 ^ shift := by
          have hsplit := Nat.mod_add_div v 128
          calc val + v % 128 * 2 ^ shift + v / 128 * 2 ^ (shift + 7)
            _ = val + (v % 128 + 128 * (v / 128)) * 2 ^ shift := by
                rw [hpow, Nat.add_mul, Nat.add_assoc, Nat.mul_comm 128 (v / 128), Nat.mul_assoc]
            _ = val + v * 2 ^ shift := by rw [hsplit]
        rw [xzReadVliLoop, if_neg (Nat.not_le.mpr hlt), if_neg hroom, hload, C.ok_bind, hbyte,
          if_neg (by omega), hlow, hgroup, or_shiftLeft hval,
          ih _ (by omega) hdiv hval' hfuel hnext, hvalue, List.length_cons, Nat.add_assoc,
          Nat.add_comm 1]

theorem xzReadVli_vli {v pos : ℕ} (hv : v < 2 ^ 63) (h : buf.drop pos = vliBytes v ++ rest) :
    xzReadVli buf buf.length pos = .ok (v, pos + (vliBytes v).length) := by
  have hloop := xzReadVliLoop_vli 9 0 rfl hv Nat.one_pos (by decide) h
  rw [xzReadVli, hloop]
  simp

/-- The loop over records adds their sizes to what it has. -/
theorem xzRecords_eq {numRecords : ℕ} :
    ∀ {records : List XzRecord} {fuel r : ℕ} (total : ℕ) {pos : ℕ},
    r + records.length = numRecords → records.length < fuel →
    buf.drop pos = records.flatMap XzRecord.bytes ++ rest →
    xzRecords buf numRecords fuel r (total % 2 ^ 64) pos =
      .ok (asInt64 ((total + (records.map XzRecord.uncomp).sum) % 2 ^ 64))
  | _, 0, _, _, _, _, hfuel, _ => absurd hfuel (Nat.not_lt_zero _)
  | [], fuel + 1, r, total, pos, hr, _, _ => by
      rw [xzRecords, if_neg (by simp at hr; omega)]
      rfl
  | rec :: records, fuel + 1, r, total, pos, hr, hfuel, h => by
      rw [List.length_cons] at hr hfuel
      rw [List.flatMap_cons, XzRecord.bytes, List.append_assoc, List.append_assoc] at h
      have huncomp := drop_of_drop h rfl
      have hnext := drop_of_drop huncomp rfl
      have hunpadded : ¬(rec.unpadded = uint64Max ∨ rec.unpadded = 0) := by
        have hpos := rec.unpadded_pos
        have hlt := rec.unpadded_lt
        rw [uint64Max]
        omega
      have hvalue : ¬rec.uncomp = uint64Max := by
        have hlt := rec.uncomp_lt
        rw [uint64Max]
        omega
      rw [xzRecords, if_pos (by omega), xzReadVli_vli rec.unpadded_lt h, C.ok_bind]
      simp only [if_neg hunpadded]
      rw [xzReadVli_vli rec.uncomp_lt huncomp, C.ok_bind]
      simp only [if_neg hvalue]
      rw [Nat.mod_add_mod, xzRecords_eq _ (by omega) (by omega) hnext, List.map_cons, List.sum_cons,
        Nat.add_assoc]

end

theorem records_length_le : ∀ records : List XzRecord,
    records.length ≤ (records.flatMap XzRecord.bytes).length
  | [] => le_rfl
  | r :: records => by
      have ih := records_length_le records
      have hpos := vliBytes_length_pos r.unpadded
      rw [List.flatMap_cons, List.length_append, XzRecord.bytes, List.length_append,
        List.length_cons]
      omega

theorem indexFront_length (records : List XzRecord) :
    records.length < (indexFront records).length := by
  have hle := records_length_le records
  rw [indexFront, List.length_cons, List.length_append]
  omega

/-- The sizes of an index are added up, modulo 2^64. -/
theorem xzParseIndex_eq {records : List XzRecord} {crc : List UInt8} (hne : records ≠ [])
    (hfits : (indexBytes records crc).length ≤ 2 ^ 34) :
    xzParseIndex (indexBytes records crc) =
      .ok (asInt64 ((records.map XzRecord.uncomp).sum % 2 ^ 64)) := by
  have hfront := indexFront_length records
  have hlen : (indexFront records).length ≤ (indexBytes records crc).length := by
    rw [indexBytes, List.length_append]
    exact Nat.le_add_right ..
  have hpos : 0 < records.length := List.length_pos_iff.mpr hne
  have hcount : ¬(records.length = uint64Max ∨ records.length = 0) := by
    rw [uint64Max]
    omega
  obtain ⟨rest, hrest⟩ : ∃ rest, indexBytes records crc =
      0x00 :: (vliBytes records.length ++ (records.flatMap XzRecord.bytes ++ rest)) := by
    refine ⟨List.replicate ((4 - (indexFront records).length % 4) % 4) 0x00 ++ crc, ?_⟩
    rw [indexBytes, indexFront]
    simp only [List.cons_append, List.append_assoc]
  have hvli : (indexBytes records crc).drop 1 =
      vliBytes records.length ++ (records.flatMap XzRecord.bytes ++ rest) := by
    rw [hrest]
    rfl
  have hload : load (indexBytes records crc) 0 = .ok 0x00 := by
    rw [hrest]
    rfl
  have hloop := xzRecords_eq 0 (Nat.zero_add _)
    (show records.length < (indexBytes records crc).length + 1 by omega) (drop_of_drop hvli rfl)
  rw [Nat.zero_mod, Nat.zero_add] at hloop
  rw [xzParseIndex, hload, C.ok_bind, if_neg (by decide), xzReadVli_vli (by omega) hvli, C.ok_bind]
  simp only [if_neg hcount]
  exact hloop

/-! ## What is read of a file -/

theorem lseek_back {origin n : ℕ} (h : n ≤ origin) : lseek origin (-n) = some (origin - n) := by
  rw [lseek, if_pos (by omega)]
  exact congrArg some (by omega)

namespace XzStream

variable (s : XzStream)

theorem index_length : s.index.length % 4 = 0 ∧ 4 ≤ s.index.length ∧ s.index.length ≤ 2 ^ 34 := by
  have hfits := s.index_fits
  have hlen : s.index.length = (indexFront s.records).length
      + ((4 - (indexFront s.records).length % 4) % 4 + 4) := by
    rw [index, indexBytes, List.length_append, List.length_append, List.length_replicate,
      s.indexCrc_length]
  rw [index] at hlen ⊢
  omega

theorem footer_length : s.footer.length = xzStreamFooterSize := by
  rw [footer, List.length_append, List.length_append, List.length_append, leBytes_length,
    s.footerCrc_length, s.flags_length]
  rfl

theorem footer_fields : Extent.slice s.footer (10, 2) = [0x59, 0x5A] ∧
    (getLe 4 s.footer 4 + 1) * 4 = s.index.length := by
  obtain ⟨hmod, hmin, hmax⟩ := s.index_length
  have hmagic : s.footer.drop 10 = [0x59, 0x5A] ++ [] := by
    have hlen : (s.footerCrc ++ (leBytes 4 (s.index.length / 4 - 1) ++ s.flags)).length = 10 := by
      rw [List.length_append, List.length_append, leBytes_length, s.footerCrc_length,
        s.flags_length]
    have hfooter : s.footer =
        (s.footerCrc ++ (leBytes 4 (s.index.length / 4 - 1) ++ s.flags)) ++ [0x59, 0x5A] := by
      rw [footer]
      simp only [List.append_assoc]
    rw [hfooter, List.append_nil]
    exact List.drop_left' hlen
  have hback : s.footer.drop 4 = leBytes 4 (s.index.length / 4 - 1) ++ (s.flags ++ [0x59, 0x5A]) :=
    List.drop_left' s.footerCrc_length
  have hvalue : getLe 4 s.footer 4 = s.index.length / 4 - 1 := by
    rw [getLe, fieldAt, Extent.slice, hback, List.take_left' (leBytes_length 4 _)]
    exact leValue_leBytes 4 _ (by omega)
  refine ⟨?_, ?_⟩
  · rw [Extent.slice, hmagic]
    rfl
  · rw [hvalue]
    omega

/-- The index that stands last in the file is read, if it has less than 2 GB. -/
theorem xzReadIndex_eq {file front behind : List UInt8} (hmagic : file = xzMagic ++ behind)
    (hfile : file = front ++ (s.index ++ s.footer)) :
    xzReadIndex file = if s.index.length < 2 ^ 31 then some s.index else none := by
  obtain ⟨hend, hsize⟩ := s.footer_fields
  have hfooter := s.footer_length
  have hlen : file.length = front.length + (s.index.length + xzStreamFooterSize) := by
    rw [hfile, List.length_append, List.length_append, hfooter]
  have hindex : file.drop front.length = s.index ++ s.footer := by
    rw [hfile, List.drop_left]
  have hlast : file.drop (front.length + s.index.length) = s.footer ++ [] := by
    rw [drop_of_drop hindex rfl, List.append_nil]
  have hstart : file.drop 0 = xzMagic ++ behind := hmagic
  have hseek : lseek file.length (-xzStreamFooterSize) = some (front.length + s.index.length) := by
    have hback := lseek_back (show xzStreamFooterSize ≤ file.length by omega)
    have hpos : file.length - xzStreamFooterSize = front.length + s.index.length := by omega
    rw [hpos] at hback
    exact hback
  have hseek' : lseek file.length (-xzStreamFooterSize - (s.index.length : ℤ)) =
      some front.length := by
    rw [lseek, if_pos (by omega)]
    exact congrArg some (by omega)
  have hzero : lseek 0 0 = some 0 := rfl
  have hread : readExact file 6 0 = some (xzMagic, 6) := readExact_of_drop hstart rfl (by decide)
  rw [xzReadIndex, hzero]
  simp only [Option.bind_eq_bind, Option.bind_some]
  rw [hread, Option.bind_some]
  simp only [ne_eq, not_true_eq_false, if_false]
  rw [hseek, Option.bind_some, readExact_of_drop hlast hfooter (by decide), Option.bind_some]
  simp only [hend, hsize, not_true_eq_false, if_false]
  rw [hseek', Option.bind_some]
  by_cases hsmall : s.index.length < 2 ^ 31
  · rw [if_pos hsmall, readExact_of_drop hindex rfl hsmall, Option.bind_some]
  · obtain ⟨-, hmin, -⟩ := s.index_length
    rw [if_neg hsmall, readExact_eq, if_neg (by omega), Option.bind_none]

end XzStream

/-! ## The size that is returned -/

/-- The streams of a file, in front of the last one -/
def xzFile (streams : List XzStream) (last : XzStream) : List UInt8 :=
  streams.flatMap XzStream.bytes ++ last.bytes

/-- What the streams decompress to -/
def xzSize (streams : List XzStream) : ℕ := (streams.map XzStream.size).sum

theorem xzFile_magic (streams : List XzStream) (last : XzStream) :
    ∃ behind, xzFile streams last = xzMagic ++ behind := by
  cases streams with
  | nil => exact ⟨_, rfl⟩
  | cons s streams =>
      rw [xzFile, List.flatMap_cons, XzStream.bytes, List.append_assoc, List.append_assoc]
      exact ⟨_, rfl⟩

/-- The result is the size of the last stream. -/
theorem getUncompressSizeXz_eq (streams : List XzStream) (last : XzStream) :
    getUncompressSizeXz (xzFile streams last) =
      .ok (if last.index.length < 2 ^ 31 then asInt64 (last.size % 2 ^ 64)
        else decompSizeError) := by
  obtain ⟨behind, hmagic⟩ := xzFile_magic streams last
  obtain ⟨front, hfile⟩ : ∃ front, xzFile streams last = front ++ (last.index ++ last.footer) := by
    refine ⟨streams.flatMap XzStream.bytes
      ++ (xzMagic ++ (last.flags ++ last.headerCrc ++ last.blocks)), ?_⟩
    rw [xzFile, XzStream.bytes]
    simp only [List.append_assoc]
  rw [getUncompressSizeXz, last.xzReadIndex_eq hmagic hfile]
  by_cases hsmall : last.index.length < 2 ^ 31
  · rw [if_pos hsmall, if_pos hsmall]
    exact xzParseIndex_eq last.records_ne last.index_fits
  · rw [if_neg hsmall, if_neg hsmall]

/-- For every content there is a result and no access outside of the index. It is the size
of a file where the streams in front of the last one are empty, and the index of that one
has less than 2 GB. -/
theorem getUncompressSizeXz_spec (file : List UInt8) (streams : List XzStream)
    (last : XzStream) :
    (∃ size, getUncompressSizeXz file = .ok size) ∧
      ((xzSize (streams ++ [last]) < 2 ^ 63 →
          getUncompressSizeXz (xzFile streams last) = .ok (xzSize (streams ++ [last]) : ℤ)) ↔
        (xzSize (streams ++ [last]) < 2 ^ 63 →
          xzSize streams = 0 ∧ last.index.length < 2 ^ 31)) := by
  constructor
  · obtain ⟨size, hsize, -⟩ := getUncompressSizeXz_achieves file
    exact ⟨size, hsize⟩
  · have htotal : xzSize (streams ++ [last]) = xzSize streams + last.size := by
      rw [xzSize, List.map_append, List.sum_append, List.map_singleton, List.sum_singleton, xzSize]
    apply forall_congr'
    intro hfit
    rw [htotal] at hfit ⊢
    rw [getUncompressSizeXz_eq, Nat.mod_eq_of_lt (by omega), asInt64_of_lt (by omega)]
    by_cases hsmall : last.index.length < 2 ^ 31
    · rw [if_pos hsmall]
      simp only [Except.ok.injEq]
      omega
    · rw [if_neg hsmall, decompSizeError]
      simp only [Except.ok.injEq]
      omega

/-- "aaa", compressed -/
def threeBytes : XzStream where
  flags := [0x00, 0x00]
  headerCrc := [0xff, 0x12, 0xd9, 0x41]
  blocks := [0x02, 0x00, 0x21, 0x01, 0x16, 0x00, 0x00, 0x00, 0x74, 0x2f, 0xe5, 0xa3,
    0x01, 0x00, 0x02, 0x61, 0x61, 0x61, 0x00, 0x00]
  records := [⟨0x13, 3, by decide, by decide, by decide⟩]
  indexCrc := [0x03, 0xa5, 0x60, 0xd8]
  footerCrc := [0x06, 0x72, 0x9e, 0x7a]
  records_ne := List.cons_ne_nil _ _
  flags_length := rfl
  headerCrc_length := rfl
  indexCrc_length := rfl
  footerCrc_length := rfl
  index_fits := by simp [indexBytes, indexFront, XzRecord.bytes, vliBytes_of_lt]

/-- "bbbbb", compressed -/
def fiveBytes : XzStream where
  flags := [0x00, 0x00]
  headerCrc := [0xff, 0x12, 0xd9, 0x41]
  blocks := [0x02, 0x00, 0x21, 0x01, 0x16, 0x00, 0x00, 0x00, 0x74, 0x2f, 0xe5, 0xa3,
    0x01, 0x00, 0x04, 0x62, 0x62, 0x62, 0x62, 0x62, 0x00, 0x00, 0x00, 0x00]
  records := [⟨0x15, 5, by decide, by decide, by decide⟩]
  indexCrc := [0xb0, 0xa7, 0x59, 0x67]
  footerCrc := [0x06, 0x72, 0x9e, 0x7a]
  records_ne := List.cons_ne_nil _ _
  flags_length := rfl
  headerCrc_length := rfl
  indexCrc_length := rfl
  footerCrc_length := rfl
  index_fits := by simp [indexBytes, indexFront, XzRecord.bytes, vliBytes_of_lt]

/-- Of two streams, one behind the other, the size of the second one is returned. -/
theorem two_streams_short : xzSize [threeBytes, fiveBytes] = 8 ∧
    getUncompressSizeXz (xzFile [threeBytes] fiveBytes) ≠
      .ok (xzSize [threeBytes, fiveBytes] : ℤ) := by
  have hindex : fiveBytes.index.length < 2 ^ 31 := by
    simp [XzStream.index, fiveBytes, indexBytes, indexFront, XzRecord.bytes, vliBytes_of_lt]
  refine ⟨rfl, ?_⟩
  rw [getUncompressSizeXz_eq, if_pos hindex]
  exact fun h => absurd (Except.ok.inj h) (by decide)

end Nawam
