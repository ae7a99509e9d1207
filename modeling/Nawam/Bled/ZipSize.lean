import Nawam.Bled.Reader

/-!
# The size of a zip file

`get_uncompress_size_zip` takes the size from the first local file header: from its
32-bit field, or, where that field is `0xFFFFFFFF`, from the ZIP64 block of the extra
field, whose blocks it walks. A header that is written before the data is compressed
does not have the size: bit 3 of its flags is set, the size fields are zero, and a data
descriptor behind the data has what they should have had. `decompress_unzip.c` heeds
that bit. Here it is not read, and the zero is returned as the size.
-/

namespace Nawam

/-! ## Source -/

abbrev zipLfhSig : ℕ := 0x04034b50

abbrev zipLfhHdrSize : ℕ := 30

abbrev zip64ExtraTag : ℕ := 0x0001

abbrev zip32NeedsZip64 : ℕ := 0xFFFFFFFF

def zipExtraLoop (file : List UInt8) (uncomp32 remaining pos : ℕ) : Option ℤ :=
  if _h : 4 ≤ remaining then
    match readExact file 4 pos with
    | none => none
    | some (tagBuf, pos) =>
        let dlen := getLe 2 tagBuf 2
        if getLe 2 tagBuf 0 = zip64ExtraTag ∧ uncomp32 = zip32NeedsZip64 then
          if dlen < 8 ∨ remaining - 4 < 8 then none
          else do
            let (sz, _) ← readExact file 8 pos
            some (asInt64 (getLe 8 sz 0))
        else if dlen > remaining - 4 then none
        else
          match lseek pos dlen with
          | none => none
          | some pos => zipExtraLoop file uncomp32 (remaining - 4 - dlen) pos
  else none -- ZIP64 tag not found
termination_by remaining
decreasing_by omega

def getUncompressSizeZip (file : List UInt8) : ℤ :=
  let size : Option ℤ := do
    let pos ← lseek 0 0
    let (hdr, pos) ← readExact file zipLfhHdrSize pos
    if getLe 4 hdr 0 ≠ zipLfhSig then none
    else
      let uncomp32 := getLe 4 hdr 22
      let fnameLen := getLe 2 hdr 26
      let extraLen := getLe 2 hdr 28
      if uncomp32 ≠ zip32NeedsZip64 then some uncomp32
      else do
        let pos ← lseek pos fnameLen
        zipExtraLoop file uncomp32 extraLen pos
  size.getD decompSizeError

/-! ## The format -/

structure ZipExtra where
  tag : UInt16
  data : List UInt8
  fits : data.length < 2 ^ 16

/-- A block as it is written -/
def ZipExtra.bytes (b : ZipExtra) : List UInt8 :=
  leBytes 2 b.tag.toNat ++ (leBytes 2 b.data.length ++ b.data)

/-- A local file header, with the name and the extra field behind it -/
structure ZipHeader where
  version : UInt16
  flags : UInt16
  method : UInt16
  time : UInt16
  date : UInt16
  crc : UInt32
  compSize : UInt32
  uncompSize : UInt32
  name : List UInt8
  extra : List ZipExtra
  name_fits : name.length < 2 ^ 16
  extra_fits : (extra.flatMap ZipExtra.bytes).length < 2 ^ 16

namespace ZipHeader

def fixed (h : ZipHeader) : List UInt8 :=
  leBytes 4 zipLfhSig ++ leBytes 2 h.version.toNat ++ leBytes 2 h.flags.toNat
    ++ leBytes 2 h.method.toNat ++ leBytes 2 h.time.toNat ++ leBytes 2 h.date.toNat
    ++ leBytes 4 h.crc.toNat ++ leBytes 4 h.compSize.toNat ++ leBytes 4 h.uncompSize.toNat
    ++ leBytes 2 h.name.length ++ leBytes 2 (h.extra.flatMap ZipExtra.bytes).length

def bytes (h : ZipHeader) : List UInt8 :=
  h.fixed ++ (h.name ++ h.extra.flatMap ZipExtra.bytes)

/-- A data descriptor follows the data, and the size fields are zero. -/
def Streamed (h : ZipHeader) : Prop :=
  h.flags.toNat.testBit 3 = true ∧ h.compSize = 0 ∧ h.uncompSize = 0

instance (h : ZipHeader) : Decidable h.Streamed := inferInstanceAs (Decidable (_ ∧ _))

end ZipHeader

/-- The uncompressed size in the ZIP64 block, where that is there and long enough -/
def zip64Size (extra : List ZipExtra) : Option ℕ := do
  let b ← extra.find? fun b => b.tag.toNat = zip64ExtraTag
  if 8 ≤ b.data.length then some (leValue (b.data.take 8)) else none

def ZipHeader.recordedSize (h : ZipHeader) : Option ℕ :=
  if h.Streamed then none
  else if h.uncompSize.toNat = zip32NeedsZip64 then zip64Size h.extra
  else some h.uncompSize.toNat

/-- A size that is recorded is the result; else the result is negative. -/
def ReturnsSize (recorded : Option ℕ) (r : ℤ) : Prop :=
  match recorded with
  | some n => r = n
  | none => r < 0

instance : ∀ (recorded : Option ℕ) (r : ℤ), Decidable (ReturnsSize recorded r)
  | some n, r => inferInstanceAs (Decidable (r = n))
  | none, r => inferInstanceAs (Decidable (r < 0))

/-! ## The walk -/

section

variable {file rest : List UInt8}

theorem getLe_blockHead (tag len : ℕ) (htag : tag < 2 ^ 16) (hlen : len < 2 ^ 16) :
    getLe 2 (leBytes 2 tag ++ leBytes 2 len) 0 = tag ∧
      getLe 2 (leBytes 2 tag ++ leBytes 2 len) 2 = len :=
  ⟨leValue_leBytes 2 tag htag, leValue_leBytes 2 len hlen⟩

/-- One turn of the walk, over one block -/
theorem zipExtraLoop_block {b : ZipExtra} {pos remaining : ℕ}
    (h : file.drop pos = b.bytes ++ rest) (hfit : b.bytes.length ≤ remaining) :
    zipExtraLoop file zip32NeedsZip64 remaining pos =
      if b.tag.toNat = zip64ExtraTag then
        if 8 ≤ b.data.length then some (asInt64 (leValue (b.data.take 8))) else none
      else
        zipExtraLoop file zip32NeedsZip64 (remaining - b.bytes.length) (pos + b.bytes.length) := by
  have hhead : (leBytes 2 b.tag.toNat ++ leBytes 2 b.data.length).length = 4 := rfl
  have hbytes : b.bytes.length = 4 + b.data.length := by
    rw [ZipExtra.bytes, ← List.append_assoc, List.length_append, hhead]
  have hdrop : file.drop pos = (leBytes 2 b.tag.toNat ++ leBytes 2 b.data.length)
      ++ (b.data ++ rest) := by
    rw [h, ZipExtra.bytes]
    simp only [List.append_assoc]
  have hdata := drop_of_drop hdrop hhead
  obtain ⟨htag, hlen⟩ := getLe_blockHead b.tag.toNat b.data.length b.tag.toNat_lt b.fits
  rw [zipExtraLoop, dif_pos (by omega), readExact_of_drop hdrop hhead (by decide)]
  simp only [htag, hlen, and_true]
  by_cases hzip64 : b.tag.toNat = zip64ExtraTag
  · rw [if_pos hzip64, if_pos hzip64]
    by_cases hlong : 8 ≤ b.data.length
    · have hsz : file.drop (pos + 4) = b.data.take 8 ++ (b.data.drop 8 ++ rest) := by
        rw [hdata, ← List.append_assoc, List.take_append_drop]
      have htake : (b.data.take 8).length = 8 := by
        rw [List.length_take, Nat.min_eq_left hlong]
      rw [if_neg (by omega), if_pos hlong, readExact_of_drop hsz htake (by decide)]
      rw [Option.bind_eq_bind, Option.bind_some, getLe, fieldAt, Extent.slice, List.drop_zero,
        List.take_of_length_le (le_of_eq htake)]
    · rw [if_pos (by omega), if_neg hlong]
  · rw [if_neg hzip64, if_neg hzip64, if_neg (by omega), lseek_natCast]
    simp only
    rw [hbytes, Nat.sub_sub, Nat.add_assoc]

theorem zip64Size_lt {extra : List ZipExtra} {n : ℕ} (h : zip64Size extra = some n) :
    n < 2 ^ 64 := by
  rw [zip64Size, Option.bind_eq_bind, Option.bind_eq_some_iff] at h
  obtain ⟨b, _, hb⟩ := h
  split at hb
  case isFalse => cases hb
  case isTrue hlong =>
      have hlen : (b.data.take 8).length = 8 := by
        rw [List.length_take, Nat.min_eq_left hlong]
      have hlt := leValue_lt (b.data.take 8)
      rw [hlen, Option.some_inj.mp hb] at hlt
      exact hlt

/-- The walk comes to the first ZIP64 block. -/
theorem zipExtraLoop_eq : ∀ {extra : List ZipExtra} {pos : ℕ},
    file.drop pos = extra.flatMap ZipExtra.bytes ++ rest →
    zipExtraLoop file zip32NeedsZip64 (extra.flatMap ZipExtra.bytes).length pos =
      (zip64Size extra).map asInt64
  | [], pos, _ => by
      rw [zipExtraLoop, dif_neg (by simp)]
      rfl
  | b :: extra, pos, h => by
      rw [List.flatMap_cons, List.append_assoc] at h
      have hrest := drop_of_drop h rfl
      rw [zipExtraLoop_block h (by simp), zip64Size]
      by_cases hzip64 : b.tag.toNat = zip64ExtraTag
      · rw [if_pos hzip64, List.find?_cons_of_pos (by simpa using hzip64)]
        by_cases hlong : 8 ≤ b.data.length
        · simp [hlong]
        · simp [hlong]
      · rw [if_neg hzip64, List.find?_cons_of_neg (by simpa using hzip64), List.flatMap_cons,
          List.length_append, Nat.add_sub_cancel_left, zipExtraLoop_eq hrest, zip64Size]

end

/-! ## The size that is returned -/

namespace ZipHeader

variable (h : ZipHeader) (rest : List UInt8)

theorem fixed_length : h.fixed.length = zipLfhHdrSize := rfl

theorem fixed_fields : getLe 4 h.fixed 0 = zipLfhSig ∧ getLe 4 h.fixed 22 = h.uncompSize.toNat ∧
    getLe 2 h.fixed 26 = h.name.length ∧
    getLe 2 h.fixed 28 = (h.extra.flatMap ZipExtra.bytes).length :=
  ⟨leValue_leBytes 4 zipLfhSig (by decide), leValue_leBytes 4 _ h.uncompSize.toNat_lt,
    leValue_leBytes 2 _ h.name_fits, leValue_leBytes 2 _ h.extra_fits⟩

/-- What is returned for a file that starts with the header. The flags do not come into it. -/
theorem getUncompressSizeZip_eq : getUncompressSizeZip (h.bytes ++ rest) =
    if h.uncompSize.toNat = zip32NeedsZip64 then
      ((zip64Size h.extra).map asInt64).getD decompSizeError
    else h.uncompSize.toNat := by
  obtain ⟨hsig, huncomp, hname, hextra⟩ := h.fixed_fields
  have hhdr : (h.bytes ++ rest).drop 0 =
      h.fixed ++ (h.name ++ (h.extra.flatMap ZipExtra.bytes ++ rest)) := by
    rw [List.drop_zero, bytes]
    simp only [List.append_assoc]
  have hbehind := drop_of_drop hhdr h.fixed_length
  have hblocks := drop_of_drop hbehind rfl
  have hstart : lseek 0 0 = some 0 := rfl
  rw [getUncompressSizeZip, hstart]
  simp only [Option.bind_eq_bind, Option.bind_some]
  rw [readExact_of_drop hhdr h.fixed_length (by decide)]
  simp only [Option.bind_some, hsig, huncomp, hname, hextra, ne_eq, not_true_eq_false, if_false]
  by_cases hneeds : h.uncompSize.toNat = zip32NeedsZip64
  · rw [if_neg (not_not.mpr hneeds), if_pos hneeds, lseek_natCast, Option.bind_some, hneeds,
      zipExtraLoop_eq hblocks]
  · rw [if_pos hneeds, if_neg hneeds, Option.getD_some]

/-- The size is the one of the header, and negative where there is none, unless bit 3
announces a data descriptor and the size fields are zero. A ZIP64 size from 2^63 on does
not fit the result. -/
theorem getUncompressSizeZip_iff :
    ReturnsSize h.recordedSize (getUncompressSizeZip (h.bytes ++ rest)) ↔
      ¬ h.Streamed ∧ (h.uncompSize.toNat = zip32NeedsZip64 →
        ∀ n, zip64Size h.extra = some n → n < 2 ^ 63) := by
  rw [getUncompressSizeZip_eq, recordedSize]
  by_cases hstreamed : h.Streamed
  · have hzero : h.uncompSize.toNat = 0 := congrArg UInt32.toNat hstreamed.2.2
    rw [if_pos hstreamed, hzero, if_neg (by decide), ReturnsSize]
    exact ⟨fun hneg => absurd hneg (by decide), fun hright => absurd hstreamed hright.1⟩
  rw [if_neg hstreamed]
  by_cases hneeds : h.uncompSize.toNat = zip32NeedsZip64
  · rw [if_pos hneeds, if_pos hneeds]
    cases hsize : zip64Size h.extra with
    | none => simp [ReturnsSize, hstreamed]
    | some n =>
        have hn : n < 2 ^ 64 := zip64Size_lt hsize
        rw [Option.map_some, Option.getD_some, ReturnsSize, asInt64_eq_self_iff hn]
        simp [hstreamed, hneeds]
  · rw [if_neg hneeds, if_neg hneeds, ReturnsSize]
    exact ⟨fun _ => ⟨hstreamed, fun h => absurd h hneeds⟩, fun _ => rfl⟩

end ZipHeader

/-- The header that a program writes which compresses from a pipe -/
def pipedHeader : ZipHeader where
  version := 20
  flags := 8
  method := 8
  time := 0
  date := 0x5821
  crc := 0
  compSize := 0
  uncompSize := 0
  name := Ascii.text "a.img"
  extra := []
  name_fits := by decide
  extra_fits := by decide

/-- For an archive that was compressed from a pipe the size is 0, as if it were known. -/
theorem piped_size_returned :
    ¬ ReturnsSize pipedHeader.recordedSize
      (getUncompressSizeZip (pipedHeader.bytes ++ [0x4b, 0x04, 0x00])) := by
  decide

end Nawam
