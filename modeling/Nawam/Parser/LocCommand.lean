import Nawam.Base.CString

/-!
# Commands of a localization file

`get_loc_cmd` of `parser.c` takes a line of a localization file apart, argument
by argument as `parse_cmd` says, and `get_loc_data_line` finds the command that
a line has in front. A quoted string ends at the first quote without a backslash
in front of it; a backslash in front of a quote is taken out, and any other one
stays.
-/

namespace Nawam

open Ascii

/-! ## Source -/

/-- `enum loc_command_type` -/
inductive LocCommand where
  | group
  | text
  | version
  | locale
  | base
  | font
  | attributes
deriving DecidableEq

/-- What a letter of `arg_type` asks for. -/
inductive ArgType where
  /-- `c`, a control ID -/
  | controlId
  /-- `s`, a quoted string -/
  | quoted
  /-- `i`, an integer -/
  | integer
  /-- `u`, a list of unsigned integers up to the end of the line -/
  | unsigned

structure LocParse where
  c : UInt8
  cmd : LocCommand
  argType : List ArgType

def parseCmd : List LocParse :=
  [⟨108, .locale, [.quoted, .quoted, .unsigned]⟩,
   ⟨98, .base, [.quoted]⟩,
   ⟨118, .version, [.unsigned]⟩,
   ⟨116, .text, [.controlId, .quoted]⟩,
   ⟨103, .group, [.controlId]⟩,
   ⟨102, .font, [.quoted, .integer]⟩,
   ⟨97, .attributes, [.quoted]⟩]

/-- `loc_cmd`, with the strings and numbers that have been read so far. -/
structure LocCmd where
  command : LocCommand
  ctrlId : ℤ
  num : List ℤ
  unum : List ℕ
  txt : List (List UInt8)
deriving DecidableEq

/-- `space` -/
def isBlank (c : UInt8) : Bool := c = space || c = tab

/-- What is left of some bytes when they are read as a string. -/
def cstr (s : List UInt8) : List UInt8 := s.takeWhile (· ≠ nul)

/-- The base that `strtol(s, &endptr, 0)` takes. -/
def numeralBase : List UInt8 → ℕ
  | 48 :: x :: c :: _ => if (x = 120 ∨ x = 88) ∧ isDigitOf 16 c then 16 else 8
  | 48 :: _ => 8
  | _ => 10

/-- `strtol(s, &endptr, 0)` with the 32-bit `long` of Windows: the value, and the
string that `endptr` points to. -/
def strtol (s : List UInt8) : ℤ × List UInt8 :=
  let (neg, t) := signOf (s.dropWhile isSpace)
  let base := numeralBase t
  let t := if base = 16 then t.drop 2 else t
  let digits := t.takeWhile (isDigitOf base)
  let v : ℤ := leadingNumeral base digits
  if digits = [] then (0, s)
  else (if neg then max (-v) (-2 ^ 31) else min v (2 ^ 31 - 1), t.drop digits.length)

/-- The loop over a quoted string. `out` is what it leaves in the line behind the
opening quote, the last character first. -/
def quotedLoop : (out line : List UInt8) → Option (List UInt8 × List UInt8)
  -- "no end quote"
  | _, [] => none
  | out, c :: line =>
      if c = quote then
        -- `line[i-1]` is the opening quote where nothing is in between
        if out.head? = some backslash then quotedLoop (quote :: out.tail) line
        else some (out.reverse, line)
      else quotedLoop (c :: out) line

/-- `line[i] == ',' || line[i] == '.'` -/
def isSeparator (c : UInt8) : Bool := c = comma || c = dot

/-- The tokens of `strtok(line, ".,")` -/
def separated (line : List UInt8) : List (List UInt8) :=
  (line.splitOnP isSeparator).filter (· ≠ [])

/-- An argument, behind its leading spaces, and what is left of the line. -/
def locArg (arg : ArgType) (cmd : LocCmd) (line : List UInt8) : Option (LocCmd × List UInt8) :=
  match arg with
  | .quoted => do
      if line.head? ≠ some quote then none
      else
        let (txt, rest) ← quotedLoop [] line.tail
        some ({ cmd with txt := cmd.txt ++ [txt] }, rest)
  | .controlId =>
      let word := line.takeWhile (!isBlank ·)
      some ({ cmd with txt := cmd.txt ++ [word] }, (line.drop word.length).tail)
  | .integer =>
      -- the comma is skipped with the spaces behind it, but for the last of them
      let line := if (line.head?.map isSeparator).getD false then
        line.drop (line.tail.takeWhile isBlank).length else line
      let word := line.takeWhile fun c => !isBlank c && !isSeparator c
      let (v, rest) := strtol word
      if rest ≠ [] then none
      else some ({ cmd with num := cmd.num ++ [v] }, (line.drop word.length).tail)
  | .unsigned =>
      -- `unum_size` has 8 bits
      let size := (1 + line.countP isSeparator) % 256
      let tokens := separated line
      if tokens.length ≠ size then none
      else some ({ cmd with unum := tokens.map fun t => ((strtol t).1 % 2 ^ 32).toNat }, line)

/-- The loop over `arg_type` -/
def locArgs : List ArgType → LocCmd → List UInt8 → Option LocCmd
  | [], cmd, _ => some cmd
  | arg :: args, cmd, line => do
      let line := line.dropWhile isBlank
      -- "missing parameter"
      if line = [] then none
      else
        let (cmd, rest) ← locArg arg cmd line
        locArgs args cmd rest

def getLocCmd (c : UInt8) (line : List UInt8) : Option LocCmd := do
  let p ← parseCmd.find? (·.c = c)
  let ctrlId := if p.cmd = .group ∨ p.cmd = .text then -1 else 0
  locArgs p.argType ⟨p.cmd, ctrlId, [], [], []⟩ line

/-- `get_loc_data_line`: the command that is dispatched. -/
def getLocDataLine (line : List UInt8) : Option LocCmd :=
  match line.dropWhile isBlank with
  | t :: b :: line =>
      if t ≠ hash ∧ isBlank b then (getLocCmd t (b :: line)).filter (·.command ≠ .locale)
      else none
  | _ => none

end Nawam
