import Nawam.Base.CString
import Nawam.Parser.IniSettings

/-!
# A setting in a file of an image

While an image is scanned, `ExtractISO` looks for `/minint` in the `OsLoadOptions`
of `txtsetup.sif`: `ReadISOFileToBuffer` reads the file, and `get_token_data_buffer`
finds the setting. The first one puts a NUL behind the file and returns the size of the
file. The second one expects the NUL within the size. So no text is ever looked into
(`getTokenDataBuffer_text`), and the image is taken for one without `/minint`, whatever
the file says.
-/

namespace Nawam

/-! ## `ReadISOFileToBuffer` -/

/-- A file of an image, and what reading its blocks does. -/
structure IsoFile where
  /-- `file_length` -/
  length : ℕ
  /-- the buffer behind the read, a byte more than the blocks -/
  buffer : List UInt8
  /-- what the read returns -/
  readSize : ℤ

structure ScannedIso where
  /-- `udf_open` succeeds -/
  isUdf : Bool
  /-- the file that is found under a path -/
  file : List UInt8 → Option IsoFile

/-- `UDF_BLOCKSIZE`, `ISO_BLOCKSIZE` -/
abbrev isoBlockSize : ℕ := 2048

/-- `nblocks` -/
def isoBlocks (length : ℕ) : ℕ := (length + isoBlockSize - 1) / isoBlockSize

/-- What a read returns that is not an error. -/
def ScannedIso.fullRead (iso : ScannedIso) (length : ℕ) : ℤ :=
  if iso.isUdf then length else isoBlocks length * isoBlockSize

/-- `ReadISOFileToBuffer`: the buffer and the size. -/
def readISOFileToBuffer (iso : ScannedIso) (path : List UInt8) : Option (List UInt8) × ℕ :=
  match iso.file path with
  | none => (none, 0)
  | some f =>
      -- "Only files smaller than 1 GB are supported"
      if 2 ^ 30 < f.length then (none, 0)
      else if f.readSize ≠ iso.fullRead f.length then (none, 0)
      else if f.length = 0 then (none, 0)
      else (some (f.buffer.set f.length 0), f.length)

/-! ## `get_token_data_buffer` -/

/-- `curly_count` behind a character; it has 32 bits and no sign. -/
def curlyCount (curly : ℕ) (c : Wchar) : ℕ :=
  if c = 123 then (curly + 1) % 2 ^ 32
  else if c = 125 then (curly + (2 ^ 32 - 1)) % 2 ^ 32
  else curly

/-- The lines of a buffer; between braces, line ends are part of a line. -/
def bufferLines : (curly : ℕ) → List Wchar → List (List Wchar)
  | _, [] => [[]]
  | curly, c :: s =>
      if curly = 0 ∧ isEol c then [] :: bufferLines 0 s
      else
        match bufferLines (curlyCount curly c) s with
        | [] => [[c]]
        | line :: lines => (c :: line) :: lines

/-- The loop over the lines; `n` is how many occurrences are still to come. -/
def tokenLoop (token : List Wchar) :
    (n : ℕ) → (wdata : Option (List Wchar)) → List (List Wchar) → Option (List Wchar)
  | 0, wdata, _ => wdata
  | _ + 1, wdata, [] => wdata
  | n + 1, _, line :: lines =>
      match getTokenDataLine token line with
      | some data => tokenLoop token n (some data) lines
      | none => tokenLoop token (n + 1) none lines

section

/- `utf8_to_wchar` of a string, which fails where the library does -/
variable (toWchar : List UInt8 → Option (List Wchar))

def getTokenDataBuffer (token : List Wchar) (n : ℕ) (buffer : Option (List UInt8)) (size : ℕ) :
    Option (List UInt8) :=
  match buffer with
  | none => none
  | some buffer =>
      if size ≤ 4 ∨ 65536 < size then none
      else if buffer[size - 1]? ≠ some 0 then none
      else
        match toWchar (buffer.takeWhile (· ≠ 0)) with
        | none => none
        | some text => (tokenLoop token n none (bufferLines 0 text)).map wcharToUtf8

/-! ## The check for `/minint` -/

/-- `img_report.winpe` has all bits of a kind. -/
def hasWinpeBits (winpe bits : ℕ) : Bool := winpe &&& bits = bits

def hasWinpe (winpe : ℕ) : Bool :=
  hasWinpeBits winpe 0x7 || hasWinpeBits winpe 0x23 || hasWinpeBits winpe 0x1C0

/-- `/%s/txtsetup.sif` -/
def txtsetupPath (winpe : ℕ) : List UInt8 :=
  Ascii.text "/" ++
    (if hasWinpeBits winpe 0x7 then Ascii.text "i386"
      else if hasWinpeBits winpe 0x23 then Ascii.text "amd64" else Ascii.text "minint") ++
    Ascii.text "/txtsetup.sif"

/-- `"OsLoadOptions"` -/
def osLoadOptions : List Wchar := utf8ToWchar (Ascii.text "OsLoadOptions")

/-- `strstr(tmp, "/minint") != NULL`, in lower case -/
def hasMinint (tmp : List UInt8) : Bool :=
  decide (Ascii.text "/minint" <:+: tmp.map asciiLower)

/-- `img_report.uses_minint` behind the check in `ExtractISO`; it is `FALSE` before. -/
def usesMinint (iso : ScannedIso) (winpe : ℕ) : Bool :=
  if hasWinpe winpe then
    let (buf, size) := readISOFileToBuffer iso (txtsetupPath winpe)
    match getTokenDataBuffer toWchar osLoadOptions 1 buf size with
    | some tmp => hasMinint tmp
    | none => false
  else false

/-! ## What the settings are -/

/-- The value of the first line with options -/
def loadOptions (content : List UInt8) : Option (List UInt8) :=
  ((toWchar content).bind fun text => firstData osLoadOptions (text.splitOnP isEol)).map
    wcharToUtf8

/-- It contains `/minint`, in upper or lower case. -/
def SaysMinint (content : List UInt8) : Prop :=
  ∃ tmp, loadOptions toWchar content = some tmp ∧ hasMinint tmp = true

/-- The file under the path can be read, and this is its content. -/
structure ScannedIso.Holds (iso : ScannedIso) (path content : List UInt8) : Prop where
  file : ∃ f, iso.file path = some f ∧ f.length = content.length ∧
    f.readSize = iso.fullRead content.length ∧ f.buffer.take content.length = content ∧
    f.buffer.length = isoBlocks content.length * isoBlockSize + 1
  length_le : content.length ≤ 2 ^ 30

end

section

variable {toWchar : List UInt8 → Option (List Wchar)} {content path : List UInt8}
  {iso : ScannedIso}

/-- A file is read with a NUL behind it, which its size does not count. -/
theorem readISOFileToBuffer_of_holds (h : iso.Holds path content) (hne : content ≠ []) :
    ∃ rest, readISOFileToBuffer iso path = (some (content ++ 0 :: rest), content.length) := by
  obtain ⟨⟨f, hfile, hlength, hread, htake, hsize⟩, hle⟩ := h
  have hroom : content.length < f.buffer.length := by
    have hblocks : isoBlocks content.length = (content.length + 2047) / 2048 := rfl
    have hblock : isoBlockSize = 2048 := rfl
    rw [hsize, hblocks, hblock]
    omega
  refine ⟨f.buffer.drop (content.length + 1), ?_⟩
  have hbuffer : f.buffer.set content.length 0
      = content ++ 0 :: f.buffer.drop (content.length + 1) := by
    rw [List.set_eq_take_append_cons_drop, if_pos hroom, htake]
  rw [readISOFileToBuffer, hfile]
  dsimp only
  rw [hlength, if_neg (Nat.not_lt.mpr hle), if_neg (not_not.mpr hread),
    if_neg (fun h => hne (List.length_eq_zero_iff.mp h)), hbuffer]

/-- A buffer whose size does not count a NUL is not looked into. -/
theorem getTokenDataBuffer_text (token : List Wchar) (n : ℕ) (rest : List UInt8)
    (htext : (0 : UInt8) ∉ content) :
    getTokenDataBuffer toWchar token n (some (content ++ rest)) content.length = none := by
  rw [getTokenDataBuffer]
  split
  case isTrue => rfl
  case isFalse hsize =>
      have hlt : content.length - 1 < content.length := by omega
      have hlast : (content ++ rest)[content.length - 1]? = some content[content.length - 1] := by
        rw [List.getElem?_append_left hlt, List.getElem?_eq_getElem hlt]
      rw [if_pos]
      rw [hlast]
      intro hzero
      exact htext (Option.some.inj hzero ▸ List.getElem_mem hlt)

/-- **No text is taken for one with `/minint`.** -/
theorem usesMinint_text {winpe : ℕ} (h : iso.Holds (txtsetupPath winpe) content)
    (htext : (0 : UInt8) ∉ content) : usesMinint toWchar iso winpe = false := by
  have hnone : getTokenDataBuffer toWchar osLoadOptions 1
      (readISOFileToBuffer iso (txtsetupPath winpe)).1
      (readISOFileToBuffer iso (txtsetupPath winpe)).2 = none := by
    by_cases hne : content = []
    · obtain ⟨⟨f, hfile, hlength, hread, -⟩, -⟩ := h
      subst hne
      rw [readISOFileToBuffer, hfile]
      dsimp only
      rw [hlength, if_neg (by decide), if_neg (not_not.mpr hread)]
      rfl
    · obtain ⟨rest, hbuffer⟩ := readISOFileToBuffer_of_holds h hne
      rw [hbuffer]
      exact getTokenDataBuffer_text _ _ _ htext
  rw [usesMinint]
  split
  case isTrue =>
      dsimp only
      rw [hnone]
  case isFalse => rfl

/-- **The check and the file agree** if and only if the file does not say `/minint`. -/
theorem usesMinint_agrees_iff {winpe : ℕ}
    (hfile : iso.Holds (txtsetupPath winpe) content) (htext : (0 : UInt8) ∉ content) :
    (usesMinint toWchar iso winpe = true ↔ SaysMinint toWchar content) ↔
      ¬SaysMinint toWchar content := by
  rw [usesMinint_text hfile htext]
  exact ⟨fun h hsays => Bool.noConfusion (h.mpr hsays), fun h =>
    ⟨fun hfalse => Bool.noConfusion hfalse, fun hsays => absurd hsays h⟩⟩

/-- A file whose options do not say `/minint` -/
def fastdetectSif : List UInt8 :=
  Ascii.text "[SetupData]\r\nOsLoadOptions = \"/fastdetect\"\r\n"

theorem usesMinint_agrees_fastdetect :
    let iso : ScannedIso := ⟨true, fun _ => some ⟨44, fastdetectSif ++ .replicate 2005 0, 44⟩⟩
    usesMinint (fun s => some (utf8ToWchar s)) iso 0x7 = true ↔
      SaysMinint (fun s => some (utf8ToWchar s)) fastdetectSif := by
  have hholds : ScannedIso.Holds
      ⟨true, fun _ => some ⟨44, fastdetectSif ++ .replicate 2005 0, 44⟩⟩
      (txtsetupPath 0x7) fastdetectSif := by
    refine ⟨⟨_, rfl, rfl, rfl, rfl, ?_⟩, by decide⟩
    rw [List.length_append, List.length_replicate]
    rfl
  refine (usesMinint_agrees_iff hholds (by decide)).mpr ?_
  rintro ⟨tmp, htmp, hsays⟩
  have hsome : loadOptions (fun s => some (utf8ToWchar s)) fastdetectSif
      = some (Ascii.text "/fastdetect") := by decide
  obtain rfl := Option.some.inj (hsome.symm.trans htmp)
  exact absurd hsays (by decide)

/-- A file that says `/minint` -/
def minintSif : List UInt8 :=
  Ascii.text "[SetupData]\r\nOsLoadOptions = \"/fastdetect /minint\"\r\n"

/-- It is not found in an image. -/
theorem usesMinint_misses :
    let iso : ScannedIso := ⟨true, fun _ => some ⟨52, minintSif ++ .replicate 1997 0, 52⟩⟩
    usesMinint (fun s => some (utf8ToWchar s)) iso 0x7 = false ∧
      SaysMinint (fun s => some (utf8ToWchar s)) minintSif := by
  have hholds : ScannedIso.Holds ⟨true, fun _ => some ⟨52, minintSif ++ .replicate 1997 0, 52⟩⟩
      (txtsetupPath 0x7) minintSif := by
    refine ⟨⟨_, rfl, rfl, rfl, rfl, ?_⟩, by decide⟩
    rw [List.length_append, List.length_replicate]
    rfl
  exact ⟨usesMinint_text hholds (by decide), Ascii.text "/fastdetect /minint", by decide,
    by decide⟩

/-! ## With the NUL -/

theorem bufferLines_eq : ∀ {s : List Wchar}, (∀ c ∈ s, c ≠ 123 ∧ c ≠ 125) →
    bufferLines 0 s = s.splitOnP isEol
  | [], _ => rfl
  | c :: s, h => by
      have hc := h c List.mem_cons_self
      have ih := bufferLines_eq fun d hd => h d (List.mem_cons_of_mem c hd)
      have hcurly : curlyCount 0 c = 0 := by
        rw [curlyCount, if_neg hc.1, if_neg hc.2]
      rw [bufferLines, hcurly, ih, List.splitOnP_cons_eq_if_modifyHead]
      by_cases heol : isEol c = true
      · rw [if_pos ⟨rfl, heol⟩, if_pos heol]
      · rw [if_neg fun h => heol h.2, if_neg heol]
        cases hlines : s.splitOnP isEol with
        | nil => exact absurd hlines (List.splitOnP_ne_nil _ _)
        | cons line lines => rfl

theorem tokenLoop_one (token : List Wchar) : ∀ lines : List (List Wchar),
    tokenLoop token 1 none lines = firstData token lines
  | [] => rfl
  | line :: lines => by
      rw [tokenLoop, firstData, List.findSome?_cons]
      cases getTokenDataLine token line with
      | none => exact tokenLoop_one token lines
      | some data =>
          change tokenLoop token 0 (some data) lines = some data
          rw [tokenLoop]

/-- If the size counted the NUL, the options would be found. -/
theorem getTokenDataBuffer_nul {text : List Wchar} (rest : List UInt8)
    (htext : (0 : UInt8) ∉ content) (hsize : 4 ≤ content.length ∧ content.length < 65536)
    (hwchar : toWchar content = some text) (hbraces : ∀ c ∈ text, c ≠ 123 ∧ c ≠ 125) :
    getTokenDataBuffer toWchar osLoadOptions 1 (some (content ++ 0 :: rest))
      (content.length + 1) = loadOptions toWchar content := by
  have hnul : (content ++ 0 :: rest)[content.length + 1 - 1]? = some 0 := by
    rw [Nat.add_sub_cancel, List.getElem?_append_right le_rfl, Nat.sub_self]
    rfl
  have hstring : (content ++ 0 :: rest).takeWhile (· ≠ 0) = content := by
    rw [List.takeWhile_append_of_pos fun c hc => by
      refine decide_eq_true ?_
      rintro rfl
      exact htext hc]
    simp
  rw [getTokenDataBuffer, if_neg (by omega), if_neg (not_not.mpr hnul), hstring, hwchar,
    loadOptions, hwchar]
  dsimp only
  rw [tokenLoop_one, bufferLines_eq hbraces]
  rfl

end

end Nawam
