import Nawam.Parser.ReplaceInToken

/-!
# Editing a config file

`set_token_data_file`, `insert_section_data` and `replace_in_token_data` write
the edited text to a temporary file and then copy it over the original. The
copy opens the temporary file for reading and the original for writing, which
empties it, and only then looks at whether both have been opened. What the file
is in the end depends on the four open calls, so these are the arguments here.
-/

namespace Nawam

/-! ## Files -/

/-- How a file is encoded: `mode` -/
inductive TextMode where
  | ansi
  | utf8
  | utf16
deriving DecidableEq

/-- A file, as the characters in it with its line breaks as they are. -/
structure ConfigFile where
  mode : TextMode
  text : List Wchar
deriving DecidableEq

def ConfigFile.empty : ConfigFile := ⟨.ansi, []⟩

/-- What is read in text mode: a Ctrl-Z ends the file. -/
def textIn : List Wchar → List Wchar
  | 13 :: 10 :: s => newline :: textIn s
  | c :: s => if c = ctrlZ then [] else c :: textIn s
  | [] => []

def textOut (s : List Wchar) : List Wchar :=
  s.flatMap fun c => if c = newline then [13, 10] else [c]

/-- Whether the two bytes of a BOM can be read. -/
def ConfigFile.hasBom (file : ConfigFile) : Bool :=
  file.mode ≠ .ansi || 2 ≤ (textIn file.text).length

/-- Which of the open calls go through: the original and the temporary file for
the edit, the temporary file and the original for the copy. -/
structure Opens where
  input : Bool
  tmpOut : Bool
  tmpIn : Bool
  output : Bool

/-- A piece that the copy takes over, by its first byte. -/
def copied (mode : TextMode) (dos2unix : Bool) (c : Wchar) : Bool :=
  !dos2unix ||
    match mode with
    | .utf16 => c.toUInt8 ≠ 13
    | _ => c ≠ 13

/-- The copy of an edited text over the original: whether it went through, and
the file. -/
def copyBack (opens : Opens) (dos2unix : Bool) (file : ConfigFile)
    (edited : Option (List Wchar)) : Bool × ConfigFile :=
  match edited with
  | none => (false, file)
  | some out =>
      if opens.tmpIn && opens.output then
        (true, ⟨file.mode, (textOut out).filter (copied file.mode dos2unix)⟩)
      else (false, if opens.output then .empty else file)

/-! ## The three functions -/

def insertSectionLine (sect data line : List Wchar) : Option (List Wchar) :=
  (skipToken sect (skipSpaces line)).map fun _ => line ++ data ++ [newline]

def insertSectionText (sect data text : List Wchar) : Option (List Wchar) :=
  let lines := (iniLines text).map (·.takeWhile (· ≠ 0))
  if lines.any fun line => (insertSectionLine sect data line).isSome then
    some (lines.flatMap fun line => (insertSectionLine sect data line).getD line)
  else none

namespace ConfigFile

/-- `set_token_data_file`: what is returned, and the file. -/
def setTokenDataFile (opens : Opens) (token data : List Wchar) (file : ConfigFile) :
    Option (List Wchar) × ConfigFile :=
  if token = [] ∨ data = [] then (none, file)
  else if opens.input = false ∨ opens.tmpOut = false then (none, file)
  else
    let r := copyBack opens false file (Nawam.setTokenDataFile token data (textIn file.text))
    (if r.1 then some data else none, r.2)

def insertSectionData (opens : Opens) (sect data : List Wchar) (dos2unix : Bool)
    (file : ConfigFile) : Option (List Wchar) × ConfigFile :=
  if sect = [] ∨ data = [] then (none, file)
  else if opens.input = false ∨ file.hasBom = false ∨ opens.tmpOut = false then (none, file)
  else
    let r := copyBack opens dos2unix file (insertSectionText sect data (textIn file.text))
    (if r.1 then some data else none, r.2)

def replaceInTokenData (opens : Opens) (token src rep : List Wchar) (dos2unix : Bool)
    (fresh : List Wchar) (file : ConfigFile) : C (Option (List Wchar) × ConfigFile) :=
  if token = [] ∨ src = [] ∨ src = rep then return (none, file)
  else if opens.input = false ∨ file.hasBom = false ∨ opens.tmpOut = false then
    return (none, file)
  else do
    let edited ← Nawam.replaceInTokenData token src rep fresh (textIn file.text)
    let r := copyBack opens dos2unix file edited
    return (if r.1 then some rep else none, r.2)

end ConfigFile

/-! ## A failed edit -/

/-- The copy empties the file and has nothing to put into it. -/
def Truncates (opens : Opens) (file : ConfigFile) : Prop :=
  opens.input = true ∧ opens.tmpOut = true ∧ opens.tmpIn = false ∧ opens.output = true ∧
    file ≠ .empty

/-- A copy that fails leaves the file alone, unless the original opens and the
temporary file does not. -/
theorem copyBack_untouched_iff {α : Type} (opens : Opens) (dos2unix : Bool) (file : ConfigFile)
    (edited : Option (List Wchar)) (data : α) :
    ((if (copyBack opens dos2unix file edited).1 then some data else none) = none →
        (copyBack opens dos2unix file edited).2 = file) ↔
      ¬(edited.isSome = true ∧ opens.tmpIn = false ∧ opens.output = true ∧
        file ≠ .empty) := by
  cases edited with
  | none => exact iff_of_true (fun _ => rfl) fun h => Bool.noConfusion h.1
  | some out =>
      rw [copyBack]
      cases htmp : opens.tmpIn with
      | true =>
          cases hout : opens.output with
          | true => exact iff_of_true nofun fun h => Bool.noConfusion h.2.1
          | false => exact iff_of_true (fun _ => rfl) fun h => Bool.noConfusion h.2.1
      | false =>
          cases hout : opens.output with
          | true =>
              constructor
              · rintro h ⟨-, -, -, hne⟩
                exact hne (h rfl).symm
              · intro h _
                by_contra hne
                exact h ⟨rfl, rfl, rfl, fun heq => hne heq.symm⟩
          | false => exact iff_of_true (fun _ => rfl) fun h => Bool.noConfusion h.2.2.1

section Untouched

variable (opens : Opens) (file : ConfigFile)

theorem setTokenDataFile_untouched_iff (token data : List Wchar) :
    ((ConfigFile.setTokenDataFile opens token data file).1 = none →
        (ConfigFile.setTokenDataFile opens token data file).2 = file) ↔
      ¬(token ≠ [] ∧ data ≠ [] ∧ Truncates opens file) := by
  rw [ConfigFile.setTokenDataFile]
  by_cases hargs : token = [] ∨ data = []
  · rw [if_pos hargs]
    exact iff_of_true (fun _ => rfl) fun h => hargs.elim h.1 h.2.1
  rw [if_neg hargs]
  by_cases hopen : opens.input = false ∨ opens.tmpOut = false
  · rw [if_pos hopen]
    refine iff_of_true (fun _ => rfl) ?_
    rintro ⟨-, -, hin, hout, -⟩
    simp [hin, hout] at hopen
  rw [if_neg hopen]
  -- the token is written in any case
  have hedit : (setTokenDataFile token data (textIn file.text)).isSome = true := by
    rw [setTokenDataFile, if_neg hargs]
    dsimp only
    split
    · rfl
    · rfl
  rw [not_or] at hargs
  simp only [not_or, Bool.not_eq_false] at hopen
  refine (copyBack_untouched_iff ..).trans (not_congr ?_)
  exact ⟨fun h => ⟨hargs.1, hargs.2, hopen.1, hopen.2, h.2⟩, fun h => ⟨hedit, h.2.2.2.2⟩⟩

theorem insertSectionData_untouched_iff (sect data : List Wchar) (dos2unix : Bool) :
    ((ConfigFile.insertSectionData opens sect data dos2unix file).1 = none →
        (ConfigFile.insertSectionData opens sect data dos2unix file).2 = file) ↔
      ¬(sect ≠ [] ∧ data ≠ [] ∧ file.hasBom = true ∧
        (∃ line ∈ iniLines (textIn file.text),
          (skipToken sect (skipSpaces (line.takeWhile (· ≠ 0)))).isSome = true) ∧
        Truncates opens file) := by
  rw [ConfigFile.insertSectionData]
  by_cases hargs : sect = [] ∨ data = []
  · rw [if_pos hargs]
    exact iff_of_true (fun _ => rfl) fun h => hargs.elim h.1 h.2.1
  rw [if_neg hargs]
  by_cases hopen : opens.input = false ∨ file.hasBom = false ∨ opens.tmpOut = false
  · rw [if_pos hopen]
    refine iff_of_true (fun _ => rfl) ?_
    rintro ⟨-, -, hbom, -, hin, hout, -⟩
    simp [hin, hout, hbom] at hopen
  rw [if_neg hopen]
  have hedit : (insertSectionText sect data (textIn file.text)).isSome = true ↔
      ∃ line ∈ iniLines (textIn file.text),
        (skipToken sect (skipSpaces (line.takeWhile (· ≠ 0)))).isSome = true := by
    simp [insertSectionText, insertSectionLine]
  rw [not_or] at hargs
  simp only [not_or, Bool.not_eq_false] at hopen
  refine (copyBack_untouched_iff ..).trans (not_congr ?_)
  rw [hedit]
  exact ⟨fun h => ⟨hargs.1, hargs.2, hopen.2.1, h.1, hopen.1, hopen.2.2, h.2⟩,
    fun h => ⟨h.2.2.2.1, h.2.2.2.2.2.2⟩⟩

theorem replaceInTokenData_untouched_iff (token src rep fresh : List Wchar) (dos2unix : Bool) :
    (∃ r file', ConfigFile.replaceInTokenData opens token src rep dos2unix fresh file
        = .ok (r, file') ∧ (r = none → file' = file)) ↔
      ¬(token ≠ [] ∧ src ≠ [] ∧ src ≠ rep ∧ file.hasBom = true ∧
        (∃ line ∈ iniLines (textIn file.text),
          (editLine token src rep (line.takeWhile (· ≠ 0))).isSome = true) ∧
        Truncates opens file) := by
  rw [ConfigFile.replaceInTokenData]
  by_cases hargs : token = [] ∨ src = [] ∨ src = rep
  · rw [if_pos hargs]
    exact iff_of_true ⟨none, file, rfl, fun _ => rfl⟩
      fun h => hargs.elim h.1 fun h' => h'.elim h.2.1 h.2.2.1
  rw [if_neg hargs]
  by_cases hopen : opens.input = false ∨ file.hasBom = false ∨ opens.tmpOut = false
  · rw [if_pos hopen]
    refine iff_of_true ⟨none, file, rfl, fun _ => rfl⟩ ?_
    rintro ⟨-, -, -, hbom, -, hin, hout, -⟩
    simp [hin, hout, hbom] at hopen
  simp only [not_or] at hargs
  rw [if_neg hopen, replaceInTokenData_eq hargs.2.1, C.ok_bind]
  simp only [not_or, Bool.not_eq_false] at hopen
  generalize hedited : (if (iniLines (textIn file.text)).any fun line =>
      (editLine token src rep (line.takeWhile (· ≠ 0))).isSome then _ else _) = edited
  have hedit : edited.isSome = true ↔ ∃ line ∈ iniLines (textIn file.text),
      (editLine token src rep (line.takeWhile (· ≠ 0))).isSome = true := by
    rw [← hedited, ← List.any_eq_true]
    split
    case isTrue h => exact iff_of_true rfl h
    case isFalse h => exact iff_of_false Bool.false_ne_true h
  have hcopy := copyBack_untouched_iff opens dos2unix file edited rep
  constructor
  · rintro ⟨r, file', hrun, hkeep⟩ ⟨-, -, -, -, hline, htrunc⟩
    cases hrun
    exact hcopy.mp hkeep ⟨hedit.mpr hline, htrunc.2.2⟩
  · intro h
    refine ⟨_, _, rfl, hcopy.mpr fun hbad => ?_⟩
    exact h ⟨hargs.1, hargs.2.1, hargs.2.2, hopen.2.1, hedit.mp hbad.1, hopen.1, hopen.2.2,
      hbad.2⟩

end Untouched

/-- **The original is left unmodified** by each of the three functions when it
returns NULL, unless an edit has been made, the temporary file does not open
again, and the original, which is not empty, does. -/
theorem failedEdit_untouched_iff (opens : Opens) (file : ConfigFile) :
    (∀ token data : List Wchar,
      ((ConfigFile.setTokenDataFile opens token data file).1 = none →
        (ConfigFile.setTokenDataFile opens token data file).2 = file) ↔
      ¬(token ≠ [] ∧ data ≠ [] ∧ Truncates opens file)) ∧
    (∀ (sect data : List Wchar) (dos2unix : Bool),
      ((ConfigFile.insertSectionData opens sect data dos2unix file).1 = none →
        (ConfigFile.insertSectionData opens sect data dos2unix file).2 = file) ↔
      ¬(sect ≠ [] ∧ data ≠ [] ∧ file.hasBom = true ∧
        (∃ line ∈ iniLines (textIn file.text),
          (skipToken sect (skipSpaces (line.takeWhile (· ≠ 0)))).isSome = true) ∧
        Truncates opens file)) ∧
    (∀ (token src rep fresh : List Wchar) (dos2unix : Bool),
      (∃ r file', ConfigFile.replaceInTokenData opens token src rep dos2unix fresh file
          = .ok (r, file') ∧ (r = none → file' = file)) ↔
      ¬(token ≠ [] ∧ src ≠ [] ∧ src ≠ rep ∧ file.hasBom = true ∧
        (∃ line ∈ iniLines (textIn file.text),
          (editLine token src rep (line.takeWhile (· ≠ 0))).isSome = true) ∧
        Truncates opens file)) :=
  ⟨setTokenDataFile_untouched_iff opens file, insertSectionData_untouched_iff opens file,
    replaceInTokenData_untouched_iff opens file⟩

/-- The text `a = b` and a line break. -/
def oneToken : ConfigFile := ⟨.ansi, [97, 32, 61, 32, 98, 13, 10]⟩

/-- The file is lost although the temporary file with its new text is there. -/
theorem failedEdit_empties_file :
    ¬((ConfigFile.setTokenDataFile ⟨true, true, false, true⟩ [97] [99] oneToken).1 = none →
      (ConfigFile.setTokenDataFile ⟨true, true, false, true⟩ [97] [99] oneToken).2
        = oneToken) := by
  intro h
  rw [setTokenDataFile_untouched_iff] at h
  exact h ⟨List.cons_ne_nil _ _, List.cons_ne_nil _ _, rfl, rfl, rfl, rfl, by decide⟩

/-! ## What a replacement changes -/

def withoutCr (s : List Wchar) : List Wchar := s.filter (· ≠ 13)

theorem withoutCr_append (s t : List Wchar) :
    withoutCr (s ++ t) = withoutCr s ++ withoutCr t :=
  List.filter_append s t

theorem withoutCr_textOut (s : List Wchar) : withoutCr (textOut s) = withoutCr s := by
  induction s with
  | nil => rfl
  | cons c s ih =>
      have hstep : textOut (c :: s) = (if c = newline then [13, 10] else [c]) ++ textOut s := rfl
      have hone : withoutCr (if c = newline then [13, 10] else [c]) = withoutCr [c] := by
        split
        case isTrue hc =>
            rw [hc]
            rfl
        case isFalse => rfl
      rw [hstep, withoutCr_append, hone, ih, ← withoutCr_append, List.singleton_append]

/-- The copy takes over all but carriage returns. -/
theorem withoutCr_copied {mode : TextMode} {dos2unix : Bool} {s : List Wchar}
    (h : dos2unix = true → mode = .utf16 → ∀ c ∈ s, c.toUInt8 = 13 → c = 13) :
    withoutCr ((textOut s).filter (copied mode dos2unix)) = withoutCr s := by
  rw [← withoutCr_textOut s, withoutCr, List.filter_filter, withoutCr]
  refine List.filter_congr fun c hc => ?_
  have hmem : c ≠ 13 → c ∈ s ∨ c = newline := by
    intro hne
    obtain ⟨d, hd, hcd⟩ := List.mem_flatMap.mp hc
    split at hcd
    · simp [hne] at hcd
      exact .inr hcd
    · rw [List.mem_singleton.mp hcd]
      exact .inl hd
  by_cases hcr : c = 13
  · simp [hcr]
  · have hkept : copied mode dos2unix c = true := by
      unfold copied
      cases dos2unix with
      | false => rfl
      | true =>
          cases mode with
          | ansi => simpa using hcr
          | utf8 => simpa using hcr
          | utf16 =>
              have hlow : c.toUInt8 ≠ 13 := by
                rcases hmem hcr with hs | rfl
                · exact fun h13 => hcr (h rfl rfl c hs h13)
                · decide
              simpa using hlow
    simp [hkept, hcr]

/-- A line that is edited has a token and data. -/
theorem two_le_of_editLine {token src rep line out : List Wchar} (htoken : token ≠ [])
    (hsrc : src ≠ []) (h : editLine token src rep line = some out) : 2 ≤ line.length := by
  obtain ⟨data, hdata, h⟩ := Option.bind_eq_some_iff.mp h
  split at h
  case isFalse => cases h
  case isTrue hhit =>
    obtain ⟨k, hk⟩ := Option.isSome_iff_exists.mp hhit
    have hocc : Occurs src data k := List.isPrefixOf_iff_prefix.mp (firstHit_some hk).holds
    have hlen := hocc.le_length hsrc
    have hpos := List.length_pos_iff.mpr hsrc
    obtain ⟨s, hs, hblank⟩ := Option.bind_eq_some_iff.mp hdata
    split at hblank
    case isTrue => cases hblank
    case isFalse =>
      cases hblank
      obtain ⟨spaces, hline, -⟩ := exists_skipSpaces line
      obtain ⟨token', hsplit, hsame⟩ := exists_of_skipToken hs
      obtain ⟨spaces', hrest, -⟩ := exists_skipSpaces s
      have htokenpos : 0 < token'.length := by
        rw [hsame.length]
        exact List.length_pos_iff.mpr htoken
      have htotal := congrArg List.length hline
      rw [hsplit, hrest] at htotal
      simp only [List.length_append] at htotal
      omega

theorem line_length_le {text line : List Wchar} (h : line ∈ textLines text) :
    line.length ≤ text.length := by
  rw [← textLines_flatten text]
  exact (List.sublist_flatten_of_mem h).length_le

/-- Where no line is edited the text stays. -/
theorem editText_of_none {token src rep text : List Wchar}
    (h : ∀ line ∈ textLines text, editLine token src rep line = none) :
    editText token src rep text = text := by
  have hid : (textLines text).flatMap (outLine token src rep)
      = (textLines text).flatMap id := by
    refine List.flatMap_congr fun line hline => ?_
    rw [outLine, h line hline]
    rfl
  rw [editText, hid, List.flatMap_id, textLines_flatten]

/-- The text `a  b` and a line break. -/
def twoBlanks : ConfigFile := ⟨.ansi, [97, 32, 32, 98, 13, 10]⟩

/-- A line with the first occurrences replaced in all that stands behind the
token, the blanks included. -/
def editBehindToken (token src rep line : List Wchar) : List Wchar :=
  match skipToken token (skipSpaces line) with
  | some s =>
      if skipSpaces s = s then line
      else line.take (line.length - s.length) ++ replaceFirst src rep maxOccurrences s
  | none => line

end Nawam
