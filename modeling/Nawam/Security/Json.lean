import Nawam.Base.Json
import Nawam.Security.Text

/-!
# The JSON walker

`NawamJsonSpace`, `NawamJsonString` and `NawamJsonValue` of
`nawam_security.h`. The cursor `[*p, end)` is the list of the bytes that are
left: `*p == end` is the empty list, `**p` is `peek`, which faults there, and
`(*p)++` drops the head. Each function returns what is left behind what it
consumed, or `none` where the source returns 0. The loops carry fuel; the
theorems of `JsonGrammar` show that they are never given too little.
-/

namespace Nawam

open Ascii

/-- `**p` -/
def peek : List UInt8 → C UInt8
  | [] => .error .outOfBounds
  | c :: _ => .ok c

@[simp] theorem peek_cons (c : UInt8) (s : List UInt8) :
    peek (c :: s) = .ok c := rfl

def nawamJsonSpace (s : List UInt8) : List UInt8 := s.dropWhile isJsonSpace

/-- The four digits of a `\u` escape. -/
def hexLoop : ℕ → List UInt8 → C (Option (List UInt8))
  | 0, s => return some s
  | n + 1, s => do
      if s = [] then return none
      else
        let c ← peek s
        if nawamHexDigit c < 0 then return none else hexLoop n s.tail

def stringLoop : ℕ → List UInt8 → C (Option (List UInt8))
  | 0, _ => .error .outOfFuel
  | fuel + 1, s => do
      if s = [] then return none
      else
        let c ← peek s
        let s := s.tail
        if c = quote then return some s
        else if c < 32 then return none
        else if c = backslash then
          if s = [] then return none
          else
            let c ← peek s
            let s := s.tail
            if c = 117 then
              match ← hexLoop 4 s with
              | none => return none
              | some s => stringLoop fuel s
            -- strchr finds the NUL of its string too, hence `|| c == 0`
            else if c ∉ escapes then return none
            else stringLoop fuel s
        else stringLoop fuel s

def nawamJsonString (s : List UInt8) : C (Option (List UInt8)) := do
  if s = [] then return none
  else
    let c ← peek s
    if c ≠ quote then return none else stringLoop (s.length + 1) s.tail

/-- `while (*p < end && **p >= '0' && **p <= '9') (*p)++` -/
def skipDigits (s : List UInt8) : List UInt8 := s.dropWhile isDigit

/-- The digits from `s` on: refused if there are none, `*p == start`. -/
def someDigits (s : List UInt8) : Option (List UInt8) :=
  if (skipDigits s).length = s.length then none else some (skipDigits s)

/-- `!memcmp(*p, word, n)` behind its length check -/
def startsWith (word s : List UInt8) : C Bool := do
  if s.length < word.length then return false
  else
    let bytes ← loadN s 0 word.length
    return bytes = word

/-- `.` and the digits behind it, if there is one. -/
def fractionPart (s : List UInt8) : Option (List UInt8) :=
  if s.head? = some dot then someDigits s.tail else some s

/-- `e` or `E`, a sign and the digits, if there is one. -/
def exponentPart (s : List UInt8) : Option (List UInt8) :=
  if s.head? = some 101 ∨ s.head? = some 69 then
    let s := s.tail
    someDigits (if s.head? = some plus ∨ s.head? = some minus then s.tail else s)
  else some s

/-- The part of a number behind its integer part. -/
def numberTail (s : List UInt8) : Option (List UInt8) :=
  (fractionPart s).bind exponentPart

/-- The words and the numbers: the end of `NawamJsonValue`. -/
def nawamJsonScalar (s : List UInt8) : C (Option (List UInt8)) := do
  if (← startsWith (text "true") s) || (← startsWith (text "null") s) then
    return some (s.drop 4)
  else if ← startsWith (text "false") s then return some (s.drop 5)
  else
    let c ← peek s
    let s := if c = minus then s.tail else s
    if s = [] then return none
    else
      let c ← peek s
      if c = zero then return numberTail s.tail
      else return (someDigits s).bind numberTail

/-- A member's name and the colon behind it. -/
def memberName (s : List UInt8) : C (Option (List UInt8)) := do
  match ← nawamJsonString s with
  | none => return none
  | some s =>
      let s := nawamJsonSpace s
      if s = [] then return none
      else
        let c ← peek s
        if c ≠ colon then return none else return some s.tail

mutual

def nawamJsonValue : ℕ → ℕ → List UInt8 → C (Option (List UInt8))
  | 0, _, _ => .error .outOfFuel
  | fuel + 1, depth, s => do
      if 32 < depth then return none
      else
        let s := nawamJsonSpace s
        if s = [] then return none
        else
          let c ← peek s
          if c = quote then nawamJsonString s
          else if c = lbrace ∨ c = lbracket then
            let close := if c = lbrace then rbrace else rbracket
            let s := nawamJsonSpace s.tail
            if s.head? = some close then return some s.tail
            else containerLoop fuel depth close s
          else nawamJsonScalar s

/-- The `for (;;)` of `NawamJsonValue`: the items or members of a container
at `depth`. -/
def containerLoop : ℕ → ℕ → UInt8 → List UInt8 → C (Option (List UInt8))
  | 0, _, _, _ => .error .outOfFuel
  | fuel + 1, depth, close, s => do
      match ← (if close = rbrace then memberName s else return some s) with
      | none => return none
      | some s =>
          match ← nawamJsonValue fuel (depth + 1) s with
          | none => return none
          | some s =>
              let s := nawamJsonSpace s
              if s = [] then return none
              else
                let c ← peek s
                if c = close then return some s.tail
                else if c ≠ comma then return none
                else containerLoop fuel depth close (nawamJsonSpace s.tail)

end

/-- The whole walk: white space, a value at depth 0, white space, and then
`p == end`. -/
def nawamJsonWalk (s : List UInt8) : C Bool := do
  let s := nawamJsonSpace s
  match ← nawamJsonValue (2 * s.length + 1) 0 s with
  | none => return false
  | some s => return nawamJsonSpace s = []

end Nawam
