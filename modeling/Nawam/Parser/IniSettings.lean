import Nawam.Base.Bytes
import Nawam.Parser.TokenLine

/-!
# Settings in a file

`ReadSettingStr` and `WriteSettingStr` where the settings are kept in a file:
`get_token_data_file` and `set_token_data_file` of `parser.c`, over the text of
the file as the C library decodes it, the line breaks being single characters.
Both read the text into a buffer of 1024 characters, line by line, and up to a
Ctrl-Z, which is the end of the file for a stream in text mode.

A value is written back into every line that the writer takes for one of the
key, or into a new line at the end. What can go wrong is collected in
`Survives`: a line further up that only the reader takes, a line that has become
too long for the buffer, a new line that is glued to a last one without a line
break, a value with a Ctrl-Z in it, and an empty value, which is not written at
all.
-/

namespace Nawam

/-! ## Source -/

/-- The character that ends a file in text mode. -/
abbrev ctrlZ : Wchar := 26

/-- What a stream in text mode delivers. -/
def beforeEof (text : List Wchar) : List Wchar := text.takeWhile (· ≠ ctrlZ)

/-- The characters that `fgetws` reads at most, of `wchar_t buf[1024]`. -/
abbrev lineSize : ℕ := 1023

/-- What `fgetws` reads, one call after the other. -/
def iniLines (text : List Wchar) : List (List Wchar) := chunks newline lineSize text

/-- `get_token_data_file_indexed`, the first one having index 1. -/
def getTokenDataFileIndexed (token text : List Wchar) (index : ℕ) :
    Option (List Wchar) :=
  if token = [] ∨ index = 0 then none
  else ((iniLines text).filterMap (getTokenDataLine token))[index - 1]?

def getTokenDataFile (token text : List Wchar) : Option (List Wchar) :=
  getTokenDataFileIndexed token text 1

def putLine (token data line : List Wchar) : List Wchar :=
  (setTokenDataLine token data line).getD line

def newLine (token data : List Wchar) : List Wchar :=
  token ++ [32, 61, 32] ++ data ++ [newline]

/-- `set_token_data_file`: the new text, or `none` for `NULL`. -/
def setTokenDataFile (token data text : List Wchar) : Option (List Wchar) :=
  if token = [] ∨ data = [] then none
  else
    let lines := iniLines text
    let out := (lines.map (putLine token data)).flatten
    if lines.any fun line => (setTokenDataLine token data line).isSome then some out
    else some (out ++ newLine token data)

def utf8Of (cp : ℕ) : List UInt8 :=
  if cp < 0x80 then [.ofNat cp]
  else if cp < 0x800 then [.ofNat (0xC0 + cp / 64), .ofNat (0x80 + cp % 64)]
  else if cp < 0x10000 then
    [.ofNat (0xE0 + cp / 4096), .ofNat (0x80 + cp / 64 % 64), .ofNat (0x80 + cp % 64)]
  else
    [.ofNat (0xF0 + cp / 262144), .ofNat (0x80 + cp / 4096 % 64),
      .ofNat (0x80 + cp / 64 % 64), .ofNat (0x80 + cp % 64)]

/-- A unit that is not part of a pair; half a pair becomes U+FFFD. -/
def utf8OfUnit (c : Wchar) : List UInt8 :=
  if 0xD800 ≤ c ∧ c < 0xE000 then utf8Of 0xFFFD else utf8Of c.toNat

def wcharToUtf8 : List Wchar → List UInt8
  | hi :: lo :: s =>
      if 0xD800 ≤ hi ∧ hi < 0xDC00 ∧ 0xDC00 ≤ lo ∧ lo < 0xE000 then
        utf8Of (0x10000 + (hi.toNat - 0xD800) * 1024 + (lo.toNat - 0xDC00)) ++
          wcharToUtf8 s
      else utf8OfUnit hi ++ wcharToUtf8 (lo :: s)
  | [c] => utf8OfUnit c
  | [] => []

/-- `utf8_to_wchar` of an ASCII string. -/
def utf8ToWchar (s : List UInt8) : List Wchar := s.map (·.toUInt16)

/-- The string that data are returned as, in a buffer of 512 bytes. -/
def settingStr (data : Option (List Wchar)) : List UInt8 :=
  match data with
  | some data => (wcharToUtf8 data).take 511
  | none => []

def readIniKeyStr (key : List UInt8) (text : List Wchar) : List UInt8 :=
  settingStr (getTokenDataFile (utf8ToWchar key) (beforeEof text))

/-- `WriteIniKeyStr`, and the text of the file after it. -/
def writeIniKeyStr (key val : List UInt8) (text : List Wchar) : Bool × List Wchar :=
  match setTokenDataFile (utf8ToWchar key) (utf8ToWchar val) (beforeEof text) with
  | some text' => (true, text')
  | none => (false, text)

/-! ## What a write should do -/

/-- The text of a file: no line is longer than the buffer. -/
structure IniText (text : List Wchar) : Prop where
  noNul : ∀ c ∈ text, c ≠ 0
  short : ∀ line, line <:+: text → newline ∉ line → line.length < lineSize

/-- A key of letters, digits and underscores. -/
def IsKey (key : List UInt8) : Prop := IsToken (utf8ToWchar key)

def SameKey (key key' : List UInt8) : Prop :=
  SameToken (utf8ToWchar key) (utf8ToWchar key')

/-- An ASCII value without quotes, line breaks and surrounding blanks. -/
structure IsValue (value : List UInt8) : Prop where
  length_le : value.length ≤ 511
  ascii : ∀ c ∈ value, 0 < c ∧ c < 128
  plain : ∀ c ∈ value, c ≠ 34 ∧ c ≠ 13 ∧ c ≠ 10
  head : ∀ c ∈ value.head?, c ≠ 32 ∧ c ≠ 9
  last : ∀ c ∈ value.getLast?, c ≠ 32 ∧ c ≠ 9

/-- The value is read back, and every other key reads as before. -/
structure RoundTrips (text : List Wchar) (key value : List UInt8) : Prop where
  written : readIniKeyStr key (writeIniKeyStr key value text).2 = value
  others : ∀ other, IsKey other → ¬SameKey other key →
    readIniKeyStr other (writeIniKeyStr key value text).2 = readIniKeyStr other text

/-! ## When it does -/

def firstData (token : List Wchar) (lines : List (List Wchar)) : Option (List Wchar) :=
  lines.findSome? (getTokenDataLine token)

/-- The writer takes the line for one of the token. -/
def isTaken (token data line : List Wchar) : Bool :=
  (setTokenDataLine token data line).isSome

/-- The lines before the first one that is written: the one the writer takes,
or a last one without a line break. -/
def earlierLines (token data text : List Wchar) : List (List Wchar) :=
  (iniLines text).takeWhile fun line =>
    !isTaken token data line && line.getLast? = some newline

/-- A line that is written where the writer takes one: the value is not cut
off at the end of the buffer, unless an earlier line counts; and what is read
behind the buffer does not count for any other key. -/
structure InPlace (text : List Wchar) (key value : List UInt8) : Prop where
  fits : firstData (utf8ToWchar key)
      (earlierLines (utf8ToWchar key) (utf8ToWchar value) text) = none →
    ∀ line, (iniLines text).find? (isTaken (utf8ToWchar key) (utf8ToWchar value)) =
        some line →
      (putLine (utf8ToWchar key) (utf8ToWchar value) line).length ≤ lineSize + 1
  spill : ∀ other, IsKey other → ¬SameKey other key →
    settingStr (firstData (utf8ToWchar other) ((iniLines text).flatMap fun line =>
      line :: (iniLines (putLine (utf8ToWchar key) (utf8ToWchar value) line)).tail)) =
      settingStr (firstData (utf8ToWchar other) (iniLines text))

/-- A line that is written behind the last one, glued to it where that one has
no line break: what is read there counts for the key, unless an earlier line
does, and for every other key it is what was read there before. -/
structure AtEnd (text : List Wchar) (key value : List UInt8) : Prop where
  reads : firstData (utf8ToWchar key)
      (earlierLines (utf8ToWchar key) (utf8ToWchar value) text) = none →
    settingStr (firstData (utf8ToWchar key) (iniLines (openLine newline text ++
      newLine (utf8ToWchar key) (utf8ToWchar value)))) = value
  glued : ∀ other, IsKey other → ¬SameKey other key →
    firstData (utf8ToWchar other)
      (earlierLines (utf8ToWchar key) (utf8ToWchar value) text) = none →
    settingStr (firstData (utf8ToWchar other) (iniLines (openLine newline text ++
      newLine (utf8ToWchar key) (utf8ToWchar value)))) =
      settingStr (firstData (utf8ToWchar other) (iniLines (openLine newline text)))

/-- When a write into a file with this text does what it should. -/
def Survives (text : List Wchar) (key value : List UInt8) : Prop :=
  if value = [] then firstData (utf8ToWchar key) (iniLines text) = none
  else
    ctrlZ ∉ utf8ToWchar value ∧ (∀ data ∈ firstData (utf8ToWchar key)
        (earlierLines (utf8ToWchar key) (utf8ToWchar value) text),
      settingStr (some data) = value) ∧
    if (iniLines text).any (isTaken (utf8ToWchar key) (utf8ToWchar value)) then
      InPlace text key value
    else AtEnd text key value

/-! ## Strings -/

theorem utf8OfUnit_ascii {c : UInt8} (h : c < 128) : utf8OfUnit c.toUInt16 = [c] := by
  have hlt : c.toNat < 128 := UInt8.lt_iff_toNat_lt.mp h
  have hnat : c.toUInt16.toNat = c.toNat := UInt8.toNat_toUInt16 c
  have hlow : ¬(0xD800 ≤ c.toUInt16 ∧ c.toUInt16 < 0xE000) := by
    rintro ⟨hle, -⟩
    rw [UInt16.le_iff_toNat_le, hnat] at hle
    have hd800 : (0xD800 : UInt16).toNat = 55296 := rfl
    omega
  rw [utf8OfUnit, if_neg hlow, hnat, utf8Of, if_pos hlt]
  simp

/-- **ASCII comes back as it was.** -/
theorem wcharToUtf8_ascii : ∀ {s : List UInt8}, (∀ c ∈ s, c < 128) →
    wcharToUtf8 (utf8ToWchar s) = s
  | [], _ => rfl
  | [c], h => utf8OfUnit_ascii (h c List.mem_cons_self)
  | c :: d :: s, h => by
      have hc := h c List.mem_cons_self
      have hlt : c.toNat < 128 := UInt8.lt_iff_toNat_lt.mp hc
      have hnat : c.toUInt16.toNat = c.toNat := UInt8.toNat_toUInt16 c
      have hlow : ¬(0xD800 ≤ c.toUInt16 ∧ c.toUInt16 < 0xDC00 ∧ 0xDC00 ≤ d.toUInt16 ∧
          d.toUInt16 < 0xE000) := by
        rintro ⟨hle, -⟩
        rw [UInt16.le_iff_toNat_le, hnat] at hle
        have hd800 : (0xD800 : UInt16).toNat = 55296 := rfl
        omega
      have ih := wcharToUtf8_ascii fun e he => h e (List.mem_cons_of_mem c he)
      show wcharToUtf8 (c.toUInt16 :: d.toUInt16 :: s.map (·.toUInt16)) = _
      rw [wcharToUtf8, if_neg hlow, utf8OfUnit_ascii hc]
      exact congrArg (c :: ·) ih

theorem utf8Of_ne_nil (cp : ℕ) : utf8Of cp ≠ [] := by
  unfold utf8Of
  split
  · exact List.cons_ne_nil _ _
  · split
    · exact List.cons_ne_nil _ _
    · split <;> exact List.cons_ne_nil _ _

theorem utf8OfUnit_ne_nil (c : Wchar) : utf8OfUnit c ≠ [] := by
  unfold utf8OfUnit
  split <;> exact utf8Of_ne_nil _

theorem settingStr_ne_nil {data : List Wchar} (h : data ≠ []) :
    settingStr (some data) ≠ [] := by
  have hutf8 : wcharToUtf8 data ≠ [] := by
    match data, h with
    | [c], _ => exact utf8OfUnit_ne_nil c
    | hi :: lo :: s, _ =>
        rw [wcharToUtf8]
        split
        · exact fun hnil => utf8Of_ne_nil _ (List.append_eq_nil_iff.mp hnil).1
        · exact fun hnil => utf8OfUnit_ne_nil _ (List.append_eq_nil_iff.mp hnil).1
  show (wcharToUtf8 data).take 511 ≠ []
  simpa using hutf8

/-- The bytes of a longer sequence are not ASCII. -/
theorem toNat_of_mem_utf8Of {cp : ℕ} (hcp : cp < 0x110000) {b : UInt8} (hb : b ∈ utf8Of cp)
    (hlow : b < 128) : b.toNat = cp := by
  have hlow' : b.toNat < 128 := UInt8.lt_iff_toNat_lt.mp hlow
  have hbyte {n : ℕ} (hn : n < 256) : (UInt8.ofNat n).toNat = n := by
    rw [UInt8.toNat_ofNat', Nat.mod_eq_of_lt hn]
  unfold utf8Of at hb
  split at hb
  case isTrue hlt =>
      rw [List.mem_singleton.mp hb, hbyte (by omega)]
  case isFalse =>
      exfalso
      split at hb
      case isTrue =>
          simp only [List.mem_cons, List.not_mem_nil, or_false] at hb
          rcases hb with rfl | rfl <;> rw [hbyte (by omega)] at hlow' <;> omega
      case isFalse =>
          split at hb
          case isTrue =>
              simp only [List.mem_cons, List.not_mem_nil, or_false] at hb
              rcases hb with rfl | rfl | rfl <;> rw [hbyte (by omega)] at hlow' <;> omega
          case isFalse =>
              simp only [List.mem_cons, List.not_mem_nil, or_false] at hb
              rcases hb with rfl | rfl | rfl | rfl <;> rw [hbyte (by omega)] at hlow' <;>
                omega

theorem toUInt16_of_mem_utf8OfUnit {b : UInt8} (hlow : b < 128) {c : Wchar}
    (hb : b ∈ utf8OfUnit c) : b.toUInt16 = c := by
  have hlt := UInt8.lt_iff_toNat_lt.mp hlow
  have h128 : (128 : UInt8).toNat = 128 := rfl
  have hsize := c.toNat_lt
  unfold utf8OfUnit at hb
  split at hb
  case isTrue =>
      have heq := toNat_of_mem_utf8Of (by omega) hb hlow
      omega
  case isFalse =>
      have heq := toNat_of_mem_utf8Of (by omega) hb hlow
      exact UInt16.toNat_inj.mp ((UInt8.toNat_toUInt16 b).trans heq)

/-- An ASCII byte comes from its own character. -/
theorem mem_of_mem_wcharToUtf8 {b : UInt8} (hlow : b < 128) : ∀ {s : List Wchar},
    b ∈ wcharToUtf8 s → b.toUInt16 ∈ s
  | [], hb => by cases hb
  | [c], hb => by
      rw [wcharToUtf8] at hb
      rw [List.mem_singleton]
      exact toUInt16_of_mem_utf8OfUnit hlow hb
  | hi :: lo :: s, hb => by
      rw [wcharToUtf8] at hb
      split at hb
      case isTrue hpair =>
          rcases List.mem_append.mp hb with hb | hb
          · exfalso
            simp only [UInt16.le_iff_toNat_le, UInt16.lt_iff_toNat_lt] at hpair
            have hd800 : (0xD800 : UInt16).toNat = 0xD800 := rfl
            have hdc00 : (0xDC00 : UInt16).toNat = 0xDC00 := rfl
            have he000 : (0xE000 : UInt16).toNat = 0xE000 := rfl
            have heq := toNat_of_mem_utf8Of (by omega) hb hlow
            have hlt := UInt8.lt_iff_toNat_lt.mp hlow
            have h128 : (128 : UInt8).toNat = 128 := rfl
            omega
          · exact List.mem_cons_of_mem _ (List.mem_cons_of_mem _
              (mem_of_mem_wcharToUtf8 hlow hb))
      case isFalse =>
          rcases List.mem_append.mp hb with hb | hb
          · rw [toUInt16_of_mem_utf8OfUnit hlow hb]
            exact List.mem_cons_self
          · exact List.mem_cons_of_mem _ (mem_of_mem_wcharToUtf8 hlow hb)

namespace IsValue

variable {value : List UInt8} (h : IsValue value)
include h

theorem settingStr_take (m : ℕ) :
    settingStr (some ((utf8ToWchar value).take m)) = value.take m := by
  have hascii : ∀ c ∈ value.take m, c < 128 := fun c hc =>
    (h.ascii c (List.mem_of_mem_take hc)).2
  have hlen : (value.take m).length ≤ 511 := by
    rw [List.length_take]
    exact (Nat.min_le_right _ _).trans h.length_le
  show (wcharToUtf8 ((value.map (·.toUInt16)).take m)).take 511 = value.take m
  rw [← List.map_take]
  show (wcharToUtf8 (utf8ToWchar (value.take m))).take 511 = value.take m
  rw [wcharToUtf8_ascii hascii, List.take_of_length_le hlen]

theorem settingStr_eq : settingStr (some (utf8ToWchar value)) = value := by
  have hall := h.settingStr_take value.length
  rwa [List.take_length, List.take_of_length_le (by simp [utf8ToWchar])] at hall

theorem isData (hne : value ≠ []) : IsData (utf8ToWchar value) where
  ne_nil := by simpa [utf8ToWchar] using hne
  head c hc := by
    rw [utf8ToWchar, List.head?_map, Option.mem_def, Option.map_eq_some_iff] at hc
    obtain ⟨b, hb, rfl⟩ := hc
    have hblank := h.head b hb
    revert hblank
    exact forall_byte (p := fun b => b ≠ 32 ∧ b ≠ 9 → isWspace b.toUInt16 = false)
      (by decide +kernel) b
  chars c hc := by
    obtain ⟨b, hb, rfl⟩ := List.mem_map.mp hc
    have hplain := h.plain b hb
    revert hplain
    exact forall_byte (p := fun b => b ≠ 34 ∧ b ≠ 13 ∧ b ≠ 10 →
      b.toUInt16 ≠ 34 ∧ isEol b.toUInt16 = false) (by decide +kernel) b

end IsValue

end Nawam
