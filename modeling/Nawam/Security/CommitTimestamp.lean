import Nawam.Security.Json

/-!
# The commit time stamp

`NawamJsonMember` and `NawamCommitTimestamp` of `nawam_security.h`: from the
answer of the commits API, the hash of the one commit it lists and the time
of that commit. A pointer into the document stands for the bytes from there
to the end it is used with, so `p - s` is the length of a list.
-/

namespace Nawam

open Ascii

/-! ## Members -/

/-- `(size_t)(value - key) == length + 2 && !memcmp(key + 1, name, length)` -/
def sameName (name key value : List UInt8) : C Bool := do
  if key.length - value.length = name.length + 2 then
    let bytes ← loadN key 1 name.length
    return bytes = name
  else return false

/-- The name at `key`, the colon and the white space around it: the end of
the name, and the start of the value. -/
def memberLabel (key : List UInt8) : C (Option (List UInt8 × List UInt8)) := do
  match ← nawamJsonString key with
  | none => return none
  | some value =>
      let p := nawamJsonSpace value
      if p = [] then return none
      else
        let c ← peek p
        if c ≠ colon then return none
        else return some (value, nawamJsonSpace p.tail)

/-- The `for (;;)` of `NawamJsonMember`. -/
def memberLoop (name : List UInt8) : ℕ → List UInt8 → Option (List UInt8) →
    C (Option (List UInt8))
  | 0, _, _ => .error .outOfFuel
  | fuel + 1, p, found => do
      let key := nawamJsonSpace p
      if key = [] then return found
      else
        let c ← peek key
        if c = rbrace then return found
        else
          match ← memberLabel key with
          | none => return none
          | some (value, p) =>
              let same ← sameName name key value
              -- the name stands there a second time
              if same = true ∧ found ≠ none then return none
              else
                let found := if same then some p else found
                match ← nawamJsonValue (2 * p.length + 1) 0 p with
                | none => return none
                | some p =>
                    let p := nawamJsonSpace p
                    if p = [] then return found
                    else
                      let c ← peek p
                      if c = rbrace then return found
                      else if c ≠ comma then return none
                      else memberLoop name fuel p.tail found

/-- `NawamJsonMember`: the value of the one member with this name. -/
def nawamJsonMember (p name : List UInt8) : C (Option (List UInt8)) := do
  let p := nawamJsonSpace p
  if p = [] then return none
  else
    let c ← peek p
    if c ≠ lbrace then return none
    else memberLoop name (p.length + 1) p.tail none

/-! ## The fields -/

/-- The `n` bytes between quotes at `s`:
`p - s < n + 2 || s[0] != '"' || s[n + 1] != '"'` refuses. -/
def quotedField (n : ℕ) (s : List UInt8) : C (Option (List UInt8)) := do
  if s.length < n + 2 then return none
  else
    let first ← load s 0
    let last ← load s (n + 1)
    if first ≠ quote ∨ last ≠ quote then return none
    else
      let bytes ← loadN s 1 n
      return some bytes

/-- The 40 digits of the hash, at `s`. -/
def shaField (s : List UInt8) : C (Option (List UInt8)) := do
  match ← quotedField 40 s with
  | none => return none
  | some sha =>
      if sha.any fun c => nawamHexDigit c < 0 then return none
      else return some sha

/-- `sep`: what stands at index `i` of a date, 0 for a digit. -/
def dateSep (i : ℕ) : UInt8 :=
  if i = 4 ∨ i = 7 then minus
  else if i = 10 then 84
  else if i = 13 ∨ i = 16 then colon
  else if i = 19 then 90
  else 0

def dateLoop : ℕ → List UInt8 → Bool
  | _, [] => true
  | i, c :: s =>
      let refused : Bool :=
        if dateSep i ≠ 0 then c ≠ dateSep i else c < 48 || 57 < c
      if refused then false else dateLoop (i + 1) s

def nawamDec2 (s : List UInt8) (n : ℕ) : C ℕ := do
  let a ← load s n
  let b ← load s (n + 1)
  return (a.toNat - 48) * 10 + (b.toNat - 48)

def mdays : List ℕ := [31, 28, 31, 30, 31, 30, 31, 31, 30, 31, 30, 31]

/-- `year % 4 == 0 && (year % 100 != 0 || year % 400 == 0)` -/
def isLeapYear (year : ℕ) : Bool :=
  year % 4 = 0 && (year % 100 ≠ 0 || year % 400 = 0)

/-- `for (i = 1970; i < year; i++) days += ..`, with `n` years to go. -/
def yearLoop : ℕ → ℕ → ℕ → ℕ
  | 0, _, days => days
  | n + 1, i, days =>
      yearLoop n (i + 1) (days + (365 + if isLeapYear i then 1 else 0))

/-- `mdays[month - 1] + (month == 2 && ..)` -/
def monthDays (year month : ℕ) : C ℕ := do
  let days ← entry mdays (month - 1)
  return days + if month = 2 && isLeapYear year then 1 else 0

/-- `for (i = 1; i < month; i++) days += ..`, with `n` months to go. -/
def monthLoop (year : ℕ) : ℕ → ℕ → ℕ → C ℕ
  | 0, _, days => return days
  | n + 1, i, days => do
      let d ← monthDays year i
      monthLoop year n (i + 1) (days + d)

/-- The time stamp of a date of the right form. All of it stays far below
`2 ^ 64`. -/
def dateStamp (s : List UInt8) : C (Option ℕ) := do
  let century ← nawamDec2 s 0
  let year2 ← nawamDec2 s 2
  let year := century * 100 + year2
  let month ← nawamDec2 s 5
  let day ← nawamDec2 s 8
  let hour ← nawamDec2 s 11
  let minute ← nawamDec2 s 14
  let second ← nawamDec2 s 17
  if year < 1970 ∨ month < 1 ∨ 12 < month ∨ 23 < hour ∨ 59 < minute ∨
      59 < second then return none
  else
    let limit ← monthDays year month
    if day = 0 ∨ limit < day then return none
    else
      let days ← monthLoop year (month - 1) 1 (yearLoop (year - 1970) 1970 0)
      let stamp := ((days + day - 1) * 24 + hour) * 3600 + minute * 60 + second
      if stamp = 0 then return none else return some stamp

def dateField (s : List UInt8) : C (Option ℕ) := do
  match ← quotedField 20 s with
  | none => return none
  | some date => if dateLoop 0 date then dateStamp date else return none

/-! ## The document -/

/-- The one value of the array at `p`: the bytes from it to the closing
bracket, `[object, p)`. -/
def firstItem (p : List UInt8) : C (Option (List UInt8)) := do
  let c ← peek p
  if c ≠ lbracket then return none
  else
    let object := nawamJsonSpace p.tail
    match ← nawamJsonValue (2 * object.length + 1) 0 object with
    | none => return none
    | some p =>
        let p := nawamJsonSpace p
        if p = [] then return none
        else
          let c ← peek p
          if c ≠ rbracket then return none
          else return some (object.take (object.length - p.length))

/-- The whole document is JSON, and it is an array of one value. -/
def commitSpan (text : List UInt8) : C (Option (List UInt8)) := do
  match ← nawamJsonValue (2 * text.length + 1) 0 text with
  | none => return none
  | some p =>
      if nawamJsonSpace p ≠ [] then return none
      else firstItem (nawamJsonSpace text)

/-- `s = NawamJsonMember(s, p, name); if (s == NULL) return 0;` and on with
`k`. -/
def withMember {α : Type} (s name : List UInt8)
    (k : List UInt8 → C (Option α)) : C (Option α) := do
  match ← nawamJsonMember s name with
  | none => return none
  | some s => k s

/-- The time stamp and the hash of the commit at `object`. -/
def commitFields (object : List UInt8) : C (Option (ℕ × List UInt8)) := do
  match ← withMember object (text "sha") shaField with
  | none => return none
  | some sha =>
      let stamp ← withMember object (text "commit") fun s =>
        withMember s (text "committer") fun s =>
          withMember s (text "date") dateField
      match stamp with
      | none => return none
      | some stamp => return some (stamp, sha)

/-- `NawamCommitTimestamp`: the time stamp and the hash. -/
def nawamCommitTimestamp (text : List UInt8) : C (Option (ℕ × List UInt8)) := do
  if text = [] ∨ 1024 * 1024 < text.length then return none
  else
    match ← commitSpan text with
    | none => return none
    | some object => commitFields object

end Nawam
