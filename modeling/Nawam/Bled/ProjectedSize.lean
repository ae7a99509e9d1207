import Nawam.Base.CString
import Nawam.Bled.DiskImageSize
import Nawam.Bled.SevenZip
import Nawam.Bled.XzSize
import Nawam.Bled.ZipSize
import Nawam.Bled.ZstdSize

/-!
# The projected size of an image

What `IsBootableImage` takes for the size that an image needs on the drive. For a
compressed image, told by its name, that is what `bled_get_uncompressed_size` returns,
where that is positive, and else the size of the compressed file.

A gzip file has the size of its data modulo 2^32, in its last four bytes, and
`get_uncompress_size_gz` leaves it to its callers to make up for that. None does.
-/

namespace Nawam

/-! ## Source -/

inductive BledCompression where
  | none
  | zip
  | lzw
  | gzip
  | lzma
  | bzip2
  | xz
  | sevenZip
  | vtsi
  | zstd
  deriving DecidableEq

/-- `type` of a `comp_assoc`: one that bled has, or one of the three behind these -/
inductive CompressionType where
  | bled (type : BledCompression)
  | ffu
  | vhd
  | vhdx
  deriving DecidableEq

def getUncompressSizeNone (_ : List UInt8) : ℤ := decompSizeUnknown

def getUncompressSizeGz (file : List UInt8) : ℤ :=
  let size : Option ℤ := do
    let pos ← lseek 0 0
    let (magic, _) ← readExact file 2 pos
    if getLe 1 magic 0 ≠ 0x1f ∨ getLe 1 magic 1 ≠ 0x8b then none
    else
      let pos ← lseek file.length (-4)
      let (isize, _) ← readExact file 4 pos
      some (getLe 4 isize 0)
  size.getD decompSizeError

def getUncompressSizeLzma (file : List UInt8) : ℤ :=
  let size : Option ℤ := do
    let pos ← lseek 0 0
    let (hdr, _) ← readExact file 13 pos
    if 225 ≤ getLe 1 hdr 0 then none
    else if getLe 8 hdr 5 = 2 ^ 64 - 1 then some decompSizeUnknown
    else some (asInt64 (getLe 8 hdr 5))
  size.getD decompSizeError

def getUncompressSizeVtsi (file : List UInt8) : ℤ :=
  let size : Option ℤ := do
    let pos ← lseek file.length (-512 + 8 + 4)
    let (isize, _) ← readExact file 8 pos
    some (asInt64 (getLe 8 isize 0))
  size.getD decompSizeError

/-- `_get_uncompressed_size[type]` -/
def getUncompressedSizeTable : BledCompression → List UInt8 → C ℤ
  | .none, file => .ok (getUncompressSizeNone file)
  | .zip, file => .ok (getUncompressSizeZip file)
  | .lzw, file => .ok (getUncompressSizeNone file)
  | .gzip, file => .ok (getUncompressSizeGz file)
  | .lzma, file => .ok (getUncompressSizeLzma file)
  | .bzip2, file => .ok (getUncompressSizeNone file)
  | .xz, file => getUncompressSizeXz file
  | .sevenZip, file => getUncompressSize7zip file
  | .vtsi, file => .ok (getUncompressSizeVtsi file)
  | .zstd, file => .ok (getUncompressSizeZstd file)

/-- What an attempt to mount a virtual disk comes to: it fails before the size is asked
for, or there, or there is a disk of some size, which may not open. -/
inductive VhdMount where
  | failed
  | unsized
  | mounted (virtualSize : ℕ) (disk : Option (List UInt8))

structure ImageSystem where
  /-- the image, where it can be opened -/
  file : Option (List UInt8)
  /-- whether `GetFileSizeEx` succeeds -/
  sizeKnown : Bool
  /-- whether `malloc` succeeds -/
  allocated : Bool
  /-- what the unpacker of a type returns for a file and a buffer of a size, and the
  buffer; where it fails it does not return -/
  unpacker : BledCompression → List UInt8 → ℕ → Option (ℤ × List UInt8)
  hasFfuSupport : Bool
  vhd : VhdMount
  /-- what `AnalyzeMBR` returns for the image -/
  analyzeMbr : Bool
  ignoreBootMarker : Bool

structure ImgReport where
  compressionType : CompressionType
  projectedSize : ℕ
  imageSize : ℕ
  isVhd : Bool
  isWindowsImg : Bool

/-- `img_report` behind the `memset` -/
def ImgReport.zero : ImgReport := ⟨.bled .none, 0, 0, false, false⟩

def getUncompressedSize (sys : ImageSystem) (file : List UInt8) (type : BledCompression) :
    C ℤ := do
  let size ← getUncompressedSizeTable type file
  if size < 0 then .ok (getUncompressedSizeFromDiskImage (sys.unpacker type file 8192))
  else .ok size

/-- `bled_get_uncompressed_size`, the library being initialized -/
def bledGetUncompressedSize (sys : ImageSystem) (type : BledCompression) : C ℤ :=
  match sys.file with
  | none => .ok (-1)
  | some file => getUncompressedSize sys file type

def bledUncompressToBuffer (sys : ImageSystem) (size : ℕ) (type : BledCompression) :
    ℤ × List UInt8 :=
  match sys.file with
  | none => (-1, [])
  | some file => (sys.unpacker type file size).getD (-1, [])

def fileAssoc : List (List UInt8 × CompressionType) :=
  [(Ascii.text ".zip", .bled .zip),
   (Ascii.text ".Z", .bled .lzw),
   (Ascii.text ".gz", .bled .gzip),
   (Ascii.text ".lzma", .bled .lzma),
   (Ascii.text ".bz2", .bled .bzip2),
   (Ascii.text ".xz", .bled .xz),
   (Ascii.text ".vtsi", .bled .vtsi),
   (Ascii.text ".zst", .bled .zstd),
   (Ascii.text ".ffu", .ffu),
   (Ascii.text ".vhd", .vhd),
   (Ascii.text ".vhdx", .vhdx)]

/-- `safe_stricmp(str1, str2) == 0` -/
def safeStricmp (str1 str2 : Option (List UInt8)) : Bool :=
  (str1.getD (Ascii.text "<NULL>")).map asciiLower
    = (str2.getD (Ascii.text "<NULL>")).map asciiLower

/-- The loop that looks for the last `.` of the path -/
def extIndex (path : List UInt8) : ℕ → ℕ
  | 0 => 0
  | i + 1 => if path[i + 1]? = some 46 then i + 1 else extIndex path i

/-- `ext` -/
def pathExt (path : List UInt8) : Option (List UInt8) :=
  if 4 < path.length then some (path.drop (extIndex path (path.length - 1))) else none

/-- The entry of `file_assoc` that is found for the path -/
def fileType (path : List UInt8) : Option CompressionType :=
  (fileAssoc.find? fun assoc => safeStricmp (pathExt path) (some assoc.1)).map Prod.snd

/-- The check of the boot marker, `dc` being what was read -/
def bootMarker (sys : ImageSystem) (dc : ℤ) (buf : List UInt8) : ℕ :=
  if dc ≠ 512 then 0
  else if getLe 1 buf 0x1fe = 0x55 ∧ getLe 1 buf 0x1ff = 0xaa then 1
  else if sys.ignoreBootMarker then 2
  else 0

/-- The case of an `.ffu`: the marker is made up where the signature is there. -/
def ffuImage (sys : ImageSystem) (report : ImgReport) : ℕ × ImgReport :=
  match sys.hasFfuSupport, sys.file with
  | true, some file =>
      let buf := file.take 512
      let dc : ℤ := buf.length
      let buf := if Extent.slice buf (4, 12) = Ascii.text "SignedImage " then
          (buf.set 0x1fe 0x55).set 0x1ff 0xaa
        else buf
      (bootMarker sys dc buf, { report with isVhd := true })
  | _, _ => (bootMarker sys 0 [], report)

/-- The case of a `.vhd` or a `.vhdx`, with `VhdMountImageAndGetSize` -/
def vhdImage (sys : ImageSystem) (report : ImgReport) : ℕ × ImgReport :=
  match sys.vhd with
  | .failed => (bootMarker sys 0 [], report)
  | .unsized => (bootMarker sys 0 [], { report with projectedSize := 0 })
  | .mounted virtualSize disk =>
      let buf := (disk.getD []).take 512
      (bootMarker sys buf.length buf,
        { report with projectedSize := virtualSize, isVhd := true })

/-- `IsCompressedBootableImage`, and `img_report` behind it -/
def isCompressedBootableImage (sys : ImageSystem) (path : List UInt8) (report : ImgReport) :
    C (ℕ × ImgReport) :=
  let report := { report with compressionType := .bled .none }
  match fileType path with
  | none => .ok (0, report)
  | some type =>
      let report := { report with compressionType := type }
      if sys.allocated then
        match type with
        | .bled type => do
            let dc ← bledGetUncompressedSize sys type
            let report := if 0 < dc then { report with projectedSize := dc.toNat } else report
            let (dc, buf) := bledUncompressToBuffer sys 512 type
            .ok (bootMarker sys dc buf, report)
        | .ffu => .ok (ffuImage sys report)
        | .vhd | .vhdx => .ok (vhdImage sys report)
      else .ok (0, report)

abbrev wimMagic : ℕ := 0x0000004D4957534D

/-- `IsBootableImage`, and `img_report` behind it -/
def isBootableImage (sys : ImageSystem) (path : List UInt8) (report : ImgReport) :
    C (ℤ × ImgReport) :=
  match sys.file with
  | none => .ok (-1, report)
  | some file => do
      let (marker, report) ← isCompressedBootableImage sys path report
      let isBootableImg : ℤ :=
        if report.compressionType = .bled .none then
          if sys.analyzeMbr then 1 else if sys.ignoreBootMarker then 2 else 0
        else if marker ≠ 0 then 1 else 0
      if sys.sizeKnown then
        let report := { report with imageSize := file.length }
        let report :=
          if report.projectedSize = 0 then { report with projectedSize := report.imageSize }
          else report
        .ok (isBootableImg, { report with isWindowsImg := getLe 8 file 0 = wimMagic })
      else .ok (-2, report)

/-! ## The format -/

def crc32Bit (crc : ℕ) : ℕ := (crc >>> 1) ^^^ (if crc % 2 = 1 then 0xedb88320 else 0)

def crc32Byte (crc : ℕ) (b : UInt8) : ℕ := crc32Bit^[8] (crc ^^^ b.toNat)

/-- The CRC-32 of a gzip file -/
def crc32 (data : List UInt8) : ℕ := data.foldl crc32Byte 0xffffffff ^^^ 0xffffffff

example : crc32 (Ascii.text "123456789") = 0xcbf43926 := by decide +kernel

structure GzipHeader where
  text : Bool
  mtime : List UInt8
  xfl : UInt8
  os : UInt8
  extra : Option (List UInt8)
  name : Option (List UInt8)
  comment : Option (List UInt8)
  headerCrc : Bool
  mtime_length : mtime.length = 4
  extra_lt : ∀ e ∈ extra, e.length < 2 ^ 16
  name_nul : ∀ s ∈ name, Ascii.nul ∉ s
  comment_nul : ∀ s ∈ comment, Ascii.nul ∉ s

namespace GzipHeader

variable (h : GzipHeader)

/-- `FTEXT`, `FHCRC`, `FEXTRA`, `FNAME` and `FCOMMENT` -/
def flags : UInt8 :=
  .ofNat (h.text.toNat + 2 * h.headerCrc.toNat + 4 * h.extra.isSome.toNat
    + 8 * h.name.isSome.toNat + 16 * h.comment.isSome.toNat)

/-- The header up to its own CRC -/
def fields : List UInt8 :=
  [0x1f, 0x8b, 8, h.flags] ++ h.mtime ++ [h.xfl, h.os]
    ++ h.extra.elim [] (fun e => leBytes 2 e.length ++ e)
    ++ h.name.elim [] (· ++ [Ascii.nul])
    ++ h.comment.elim [] (· ++ [Ascii.nul])

def bytes : List UInt8 :=
  h.fields ++ if h.headerCrc then leBytes 2 (crc32 h.fields % 2 ^ 16) else []

end GzipHeader

/-- A gzip file of one member. `Deflated data body` says that `body` is `data`, compressed. -/
structure GzipMember (Deflated : List UInt8 → List UInt8 → Prop) where
  header : GzipHeader
  data : List UInt8
  body : List UInt8
  nonempty : 0 < data.length
  deflated : Deflated data body

/-- The file: the data is followed by its CRC and by its size, as far as that fits. -/
def GzipMember.bytes {Deflated : List UInt8 → List UInt8 → Prop} (m : GzipMember Deflated) :
    List UInt8 :=
  m.header.bytes ++ (m.body ++ (leBytes 4 (crc32 m.data) ++ leBytes 4 (m.data.length % 2 ^ 32)))

/-- The image, of `n` bytes when it is unpacked, is told its size: the projected size is
set to `n`, or is left as it was and comes to `n` at least behind the whole analysis. -/
def ProjectsSize (n : ℕ) (sys : ImageSystem) (path : List UInt8) (report : ImgReport) : Prop :=
  Achieves (isCompressedBootableImage sys path report) fun r₁ =>
    Achieves (isBootableImage sys path report) fun r₂ =>
      r₁.2.projectedSize = n ∨
        r₁.2.projectedSize = report.projectedSize ∧ (0 ≤ r₂.1 → n ≤ r₂.2.projectedSize)

/-! ## The size of a gzip file -/

theorem readExact_tail (front : List UInt8) {bs : List UInt8} {n : ℕ} (hn : bs.length = n)
    (hlt : n < 2 ^ 31) :
    ∃ pos, lseek (front ++ bs).length (-(n : ℤ)) = some pos ∧
      readExact (front ++ bs) n pos = some (bs, pos + n) := by
  refine ⟨front.length, ?_, ?_⟩
  · have hlen : ((front ++ bs).length : ℤ) = front.length + n := by
      rw [List.length_append, hn]
      rfl
    have hpos : ((front ++ bs).length : ℤ) + -(n : ℤ) = front.length := by omega
    rw [lseek, hpos, if_pos (Int.natCast_nonneg _), Int.toNat_natCast]
  · have hdrop : (front ++ bs).drop front.length = bs ++ [] := by
      rw [List.drop_left, List.append_nil]
    exact readExact_of_drop hdrop hn hlt

section

variable {Deflated : List UInt8 → List UInt8 → Prop} (m : GzipMember Deflated)
variable (sys : ImageSystem) (path : List UInt8) (report : ImgReport)

namespace GzipMember

theorem bytes_magic : ∃ rest, m.bytes = [0x1f, 0x8b] ++ rest := ⟨_, rfl⟩

theorem getUncompressSizeGz_bytes :
    getUncompressSizeGz m.bytes = (m.data.length % 2 ^ 32 : ℕ) := by
  obtain ⟨rest, hmagic⟩ := m.bytes_magic
  have hstart : readExact m.bytes 2 0 = some ([0x1f, 0x8b], 2) :=
    readExact_of_drop hmagic rfl (by decide)
  have hlt : m.data.length % 2 ^ 32 < 256 ^ 4 := Nat.mod_lt _ (by decide)
  obtain ⟨pos, hseek, hread⟩ := readExact_tail
    (m.header.bytes ++ (m.body ++ leBytes 4 (crc32 m.data)))
    (leBytes_length 4 (m.data.length % 2 ^ 32)) (by decide)
  have hbytes : m.header.bytes ++ (m.body ++ leBytes 4 (crc32 m.data))
      ++ leBytes 4 (m.data.length % 2 ^ 32) = m.bytes := by
    rw [bytes, List.append_assoc, List.append_assoc]
  rw [hbytes] at hseek hread
  have hback : lseek m.bytes.length (-4) = some pos := hseek
  have hsize : getLe 4 (leBytes 4 (m.data.length % 2 ^ 32)) 0 = m.data.length % 2 ^ 32 := by
    rw [getLe, fieldAt, Extent.slice, List.drop_zero,
      List.take_of_length_le (leBytes_length 4 _).le, leValue_leBytes 4 _ hlt]
  have hmagics : ¬(getLe 1 [0x1f, 0x8b] 0 ≠ 0x1f ∨ getLe 1 [0x1f, 0x8b] 1 ≠ 0x8b) := by decide
  calc getUncompressSizeGz m.bytes
    _ = (some ((getLe 4 (leBytes 4 (m.data.length % 2 ^ 32)) 0 : ℕ) : ℤ)).getD decompSizeError := by
        simp only [getUncompressSizeGz, show lseek 0 0 = some 0 from rfl, Option.bind_eq_bind,
          Option.bind_some, hstart, if_neg hmagics, hback, hread]
    _ = (m.data.length % 2 ^ 32 : ℕ) := by rw [Option.getD_some, hsize]

theorem bledGetUncompressedSize_gzip (hfile : sys.file = some m.bytes) :
    bledGetUncompressedSize sys .gzip = .ok ((m.data.length % 2 ^ 32 : ℕ) : ℤ) := by
  have hpos : ¬((m.data.length % 2 ^ 32 : ℕ) : ℤ) < 0 := by omega
  rw [bledGetUncompressedSize, hfile]
  simp only [getUncompressedSize, getUncompressedSizeTable, m.getUncompressSizeGz_bytes,
    C.ok_bind, if_neg hpos]

/-- The projected size behind `IsCompressedBootableImage` -/
def projected (allocated : Bool) (before : ℕ) : ℕ :=
  if allocated ∧ m.data.length % 2 ^ 32 ≠ 0 then m.data.length % 2 ^ 32 else before

theorem isCompressedBootableImage_gzip (hfile : sys.file = some m.bytes)
    (hpath : fileType path = some (.bled .gzip)) :
    ∃ marker, isCompressedBootableImage sys path report =
      .ok (marker, { report with
        compressionType := .bled .gzip
        projectedSize := m.projected sys.allocated report.projectedSize }) := by
  rw [isCompressedBootableImage, hpath]
  cases hallocated : sys.allocated with
  | false => exact ⟨0, rfl⟩
  | true =>
      refine ⟨bootMarker sys (bledUncompressToBuffer sys 512 .gzip).1
        (bledUncompressToBuffer sys 512 .gzip).2, ?_⟩
      simp only [m.bledGetUncompressedSize_gzip sys hfile, C.ok_bind, if_true, projected]
      by_cases hzero : m.data.length % 2 ^ 32 = 0
      · rw [if_neg (by omega), if_neg (fun h => h.2 hzero)]
      · rw [if_pos (by omega), if_pos ⟨trivial, hzero⟩, Int.toNat_natCast]

end GzipMember

theorem isBootableImage_projectedSize {file : List UInt8} {marker : ℕ} {r : ImgReport}
    (hfile : sys.file = some file)
    (hr : isCompressedBootableImage sys path report = .ok (marker, r)) :
    Achieves (isBootableImage sys path report) fun r₂ =>
      (0 ≤ r₂.1 ↔ sys.sizeKnown = true) ∧ (sys.sizeKnown = true →
        r₂.2.projectedSize = if r.projectedSize = 0 then file.length else r.projectedSize) := by
  rw [isBootableImage, hfile]
  simp only [hr, C.ok_bind]
  cases hknown : sys.sizeKnown with
  | false => exact .ok ⟨by simp, by simp⟩
  | true =>
      refine .ok ⟨?_, fun _ => ?_⟩
      · simp only [iff_true]
        split_ifs <;> decide
      · by_cases hzero : r.projectedSize = 0
        · simp only [if_pos hzero]
        · simp only [if_neg hzero]

namespace GzipMember

theorem projectsSize_iff_projected (hfile : sys.file = some m.bytes)
    (hpath : fileType path = some (.bled .gzip)) :
    ProjectsSize m.data.length sys path report ↔
      m.projected sys.allocated report.projectedSize = m.data.length ∨
        m.projected sys.allocated report.projectedSize = report.projectedSize ∧
          (sys.sizeKnown = true → m.data.length ≤
            if report.projectedSize = 0 then m.bytes.length else report.projectedSize) := by
  obtain ⟨marker, hr⟩ := m.isCompressedBootableImage_gzip sys path report hfile hpath
  obtain ⟨r₂, hr₂, hsign, hlast⟩ := isBootableImage_projectedSize sys path report hfile hr
  rw [ProjectsSize, hr, Achieves.ok_iff, hr₂, Achieves.ok_iff, hsign]
  refine or_congr_right (and_congr_right fun hsame => ?_)
  rw [← hsame]
  constructor
  · intro hle hknown
    rw [← hlast hknown]
    exact hle hknown
  · intro hle hknown
    rw [hlast hknown]
    exact hle hknown

/-- The projected size is right for less than 4 GB of data. For more it has to be a multiple
of 4 GB, so that there is nothing to set, and the size that was there before, or that of the
compressed file, has to be large enough. -/
theorem projectsSize_iff (hfile : sys.file = some m.bytes)
    (hpath : fileType path = some (.bled .gzip)) :
    ProjectsSize m.data.length sys path report ↔
      (sys.allocated = true ∧ m.data.length < 2 ^ 32) ∨
        ((sys.allocated = true → m.data.length % 2 ^ 32 = 0 ∨
            m.data.length % 2 ^ 32 = report.projectedSize) ∧
          (sys.sizeKnown = true → m.data.length ≤
            if report.projectedSize = 0 then m.bytes.length else report.projectedSize)) := by
  have hpos := m.nonempty
  rw [m.projectsSize_iff_projected sys path report hfile hpath]
  by_cases hset : sys.allocated = true ∧ m.data.length % 2 ^ 32 ≠ 0
  · obtain ⟨hallocated, hne⟩ := hset
    rw [projected, if_pos ⟨hallocated, hne⟩]
    refine or_congr ?_ (and_congr_left fun _ => ?_)
    · rw [Nat.mod_eq_iff_lt (by decide)]
      exact ⟨fun hlt => ⟨hallocated, hlt⟩, fun h => h.2⟩
    · exact ⟨fun hsame _ => Or.inr hsame, fun h => (h hallocated).resolve_left hne⟩
  · have hzero (hallocated : sys.allocated = true) : m.data.length % 2 ^ 32 = 0 := by
      by_contra hne
      exact hset ⟨hallocated, hne⟩
    rw [projected, if_neg hset]
    constructor
    · intro h
      refine Or.inr ⟨fun hallocated => Or.inl (hzero hallocated), fun hknown => ?_⟩
      rcases h with hsize | ⟨-, hle⟩
      · rw [hsize, if_neg (by omega)]
      · exact hle hknown
    · rintro (⟨hallocated, hlt⟩ | ⟨-, hle⟩)
      · have := hzero hallocated
        omega
      · exact Or.inr ⟨rfl, hle⟩

end GzipMember

end

/-! ## Images of 4 GB and more -/

def storedBlock (last : Bool) (chunk : List UInt8) : List UInt8 :=
  .ofNat last.toNat :: (leBytes 2 chunk.length ++ leBytes 2 (2 ^ 16 - 1 - chunk.length) ++ chunk)

def storedStream (data : List UInt8) : List UInt8 :=
  if data.length < 2 ^ 16 then storedBlock true data
  else storedBlock false (data.take (2 ^ 16 - 1)) ++ storedStream (data.drop (2 ^ 16 - 1))
termination_by data.length
decreasing_by
  rw [List.length_drop]
  omega

/-- A disk with a boot marker, and nothing else, of `512 + n` bytes -/
def markedDisk (n : ℕ) : List UInt8 :=
  List.replicate 510 0 ++ ([0x55, 0xaa] ++ List.replicate n 0)

theorem markedDisk_length (n : ℕ) : (markedDisk n).length = 512 + n := by
  rw [markedDisk, List.length_append, List.length_append, List.length_replicate,
    List.length_replicate, List.length_cons, List.length_cons, List.length_nil]
  omega

theorem noTime_length : ([0, 0, 0, 0] : List UInt8).length = 4 := rfl

def storedDisk (n : ℕ) : GzipMember fun data body => body = storedStream data where
  header :=
    { text := false
      mtime := [0, 0, 0, 0]
      xfl := 0
      os := 255
      extra := none
      name := none
      comment := none
      headerCrc := false
      mtime_length := noTime_length
      extra_lt := fun _ h => nomatch h
      name_nul := fun _ h => nomatch h
      comment_nul := fun _ h => nomatch h }
  data := markedDisk n
  body := storedStream (markedDisk n)
  nonempty := by
    rw [markedDisk_length]
    omega
  deflated := rfl

/-- The system where that file is `disk.gz`: the unpacker fills its buffer from the disk. -/
def storedDiskSystem (n : ℕ) : ImageSystem where
  file := some (storedDisk n).bytes
  sizeKnown := true
  allocated := true
  unpacker := fun _ _ size =>
    some (((markedDisk n).take size).length, (markedDisk n).take size)
  hasFfuSupport := false
  vhd := .failed
  analyzeMbr := true
  ignoreBootMarker := false

theorem storedDisk_gib : ProjectsSize (storedDisk (2 ^ 30 - 512)).data.length
    (storedDiskSystem (2 ^ 30 - 512)) (Ascii.text "disk.gz") .zero := by
  refine ((storedDisk (2 ^ 30 - 512)).projectsSize_iff _ _ _ rfl (by decide)).mpr
    (Or.inl ⟨rfl, ?_⟩)
  have hlen : (storedDisk (2 ^ 30 - 512)).data.length = 512 + (2 ^ 30 - 512) :=
    markedDisk_length (2 ^ 30 - 512)
  omega

/-- A disk of 5 GB is taken for one of 1 GB. -/
theorem storedDisk_misjudged : ¬ ProjectsSize (storedDisk (5 * 2 ^ 30 - 512)).data.length
    (storedDiskSystem (5 * 2 ^ 30 - 512)) (Ascii.text "disk.gz") .zero := by
  have hlen : (storedDisk (5 * 2 ^ 30 - 512)).data.length = 512 + (5 * 2 ^ 30 - 512) :=
    markedDisk_length (5 * 2 ^ 30 - 512)
  have hprojected : (storedDisk (5 * 2 ^ 30 - 512)).projected true 0 = 2 ^ 30 := by
    rw [GzipMember.projected, hlen]
    decide
  rw [GzipMember.projectsSize_iff_projected _ _ _ _ rfl (by decide), hlen]
  rintro (hsize | ⟨hsame, -⟩)
  · exact absurd (hprojected.symm.trans hsize) (by decide)
  · exact absurd (hprojected.symm.trans hsame) (by decide)

end Nawam
