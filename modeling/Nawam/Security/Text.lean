import Nawam.Base.CString
import Nawam.Base.Lines

/-!
# The security text validator

`NawamHexDigit` and `NawamSecurityTextValid` of `nawam_security.h`: every row
of a downloaded SBAT level or certificate thumbprint list is checked before
the permissive parsers see the text.

The text is the list of its `size` bytes; a `NULL` text only ever comes with
size 0, which is refused by the same test. The line scanner works on what is
left of the text, the row checks on the row; the one test that looks at the
text by absolute offset (`memcmp(text + comma - 4, "sbat", 4)`) is kept that
way.
-/

namespace Nawam

open Ascii

/-- `NawamHexDigit`: the digit's value, or `-1`. -/
def nawamHexDigit (c : UInt8) : ℤ :=
  if 48 ≤ c ∧ c ≤ 57 then (c.toNat : ℤ) - 48
  else if 97 ≤ c ∧ c ≤ 102 then (c.toNat : ℤ) - 97 + 10
  else if 65 ≤ c ∧ c ≤ 70 then (c.toNat : ℤ) - 65 + 10
  else -1

/-- `(unsigned)NawamHexDigit(c)` -/
def nawamHexDigitUnsigned (c : UInt8) : ℕ := (nawamHexDigit c % 2 ^ 32).toNat

abbrev uint32Max : ℕ := 2 ^ 32 - 1

theorem nawamHexDigit_eq (c : UInt8) :
    nawamHexDigit c = match digitValue c with
      | some d => (d : ℤ)
      | none => -1 := by
  unfold nawamHexDigit digitValue
  simp only [UInt8.le_iff_toNat_le]
  split
  · rename_i h
    have h48 : (48 : UInt8).toNat = 48 := rfl
    simp only
    omega
  · split
    · rename_i h
      have h97 : (97 : UInt8).toNat = 97 := rfl
      simp only
      omega
    · split
      · rename_i h
        have h65 : (65 : UInt8).toNat = 65 := rfl
        simp only
        omega
      · rfl

theorem nawamHexDigit_nonneg_iff (c : UInt8) :
    0 ≤ nawamHexDigit c ↔ (digitValue c).isSome = true := by
  rw [nawamHexDigit_eq]
  cases digitValue c <;> simp

theorem nawamHexDigitUnsigned_eq (c : UInt8) :
    nawamHexDigitUnsigned c = (digitValue c).getD uint32Max := by
  unfold nawamHexDigitUnsigned
  rw [nawamHexDigit_eq]
  cases hd : digitValue c with
  | none => decide
  | some d =>
      have hlt := digitValue_lt hd
      simp only [Option.getD_some]
      omega

/-- What the rows of a text are: `0` = SBAT/SVN, `1` = SHA-1 certificate
thumbprints. -/
inductive TextKind where
  | sbat
  | thumbprint
deriving DecidableEq, Repr

/-! ## One line -/

/-- Scan to the line feed: the number of bytes before it, or `none` at a byte
the validator refuses (a control character, a byte above 126, a CR that is
not followed by LF). -/
def lineEnd : List UInt8 → Option ℕ
  | [] => some 0
  | c :: rest =>
      if c = lf then some 0
      else if (c < 32 ∧ c ≠ tab ∧ c ≠ cr) ∨ 126 < c then none
      else if c = cr ∧ (rest = [] ∨ rest.head? ≠ some lf) then none
      else (lineEnd rest).map (· + 1)

/-- `if (end > start && text[end - 1] == '\r') end--;` -/
def trimCr (row : List UInt8) : List UInt8 :=
  if row.getLast? = some cr then row.dropLast else row

/-- `[A-Za-z0-9._-]` -/
def isProductChar (c : UInt8) : Bool :=
  (97 ≤ c && c ≤ 122) || (65 ≤ c && c ≤ 90) || (48 ≤ c && c ≤ 57) ||
    c = 46 || c = 95 || c = 45

/-- `"sbat"` -/
def sbatName : List UInt8 := text "sbat"

/-- The version loop: digits up to a comma or the end of the row, with the
value kept within 32 bits. Returns the value and what is left of the row. -/
def versionLoop (base : ℕ) : ℕ → List UInt8 → Option (ℕ × List UInt8)
  | version, [] => some (version, [])
  | version, c :: rest =>
      if c = comma then some (version, c :: rest)
      else
        let digit := nawamHexDigitUnsigned c
        if base ≤ digit ∨ (uint32Max - digit) / base < version then none
        else versionLoop base (version * base + digit) rest

/-- `0x` selects base 16. -/
def versionBase : List UInt8 → ℕ × List UInt8
  | 48 :: 120 :: digits => (16, digits)
  | digits => (10, digits)

/-- The checks on a row of kind 1. -/
def thumbprintRowValid (row : List UInt8) : Bool :=
  row.length = 40 && row.all fun c => decide (0 ≤ nawamHexDigit c)

/-- The checks on a row of kind 0 that starts at offset `start` of `text`. -/
def sbatRowValid (text : List UInt8) (start : ℕ) (row : List UInt8) : Bool :=
  let product := row.takeWhile (· ≠ comma)
  let commaPos := start + product.length
  if !product.all isProductChar then false
  else if product.length = 0 ∨ product.length > 127 then false
  else
    match row.dropWhile (· ≠ comma) with
    | [] => false
    | _ :: column =>
        let (base, digits) := versionBase column
        match versionLoop base 0 digits with
        | none => false
        | some (version, rest) =>
            if rest.length = digits.length ∨ version = 0 then false
            else
              match rest with
              | [] => true
              | _ :: date =>
                  -- only the standard SBAT format version row has a date
                  if commaPos < 4 ∨
                      (text.drop (commaPos - 4)).take 4 ≠ sbatName ∨
                      rest.length ≠ 11 then false
                  else date.all isDigit

def rowValid (kind : TextKind) (text : List UInt8) (start : ℕ)
    (row : List UInt8) : Bool :=
  match kind with
  | .thumbprint => thumbprintRowValid row
  | .sbat => sbatRowValid text start row

/-! ## The whole text -/

/-- The outer loop: one line per iteration, from offset `pos`. -/
def textLoop (kind : TextKind) (text : List UInt8) (pos count : ℕ) : ℕ :=
  if _h : pos < text.length then
    match lineEnd (text.drop pos) with
    | none => 0
    | some n =>
        let row := trimCr ((text.drop pos).take n)
        let pos' := if pos + n < text.length then pos + n + 1 else pos + n
        if row = [] ∨ row.head? = some hash then textLoop kind text pos' count
        else if rowValid kind text pos row then
          textLoop kind text pos' (count + 1)
        else 0
  else count
termination_by text.length - pos
decreasing_by all_goals (split <;> omega)

/-- `NawamSecurityTextValid`: the number of data rows of a well-formed text,
else 0. -/
def nawamSecurityTextValid (text : List UInt8) (kind : TextKind) : ℕ :=
  if text.length = 0 ∨ text.length > 64 * 1024 then 0
  else textLoop kind text 0 0

end Nawam
