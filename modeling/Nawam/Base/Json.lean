import Nawam.Base.Bytes

/-!
# JSON texts

The grammar of RFC 8259 over bytes. `Value v s` says that the bytes `s` are
the value `v`, with no white space around it; `JsonText v s` adds the white
space. Strings and numbers stay as they are written: the recogniser above
compares raw bytes and never interprets an escape.
-/

namespace Nawam

open Ascii

inductive Json where
  | null
  | bool (b : Bool)
  | number (raw : List UInt8)
  | string (raw : List UInt8)
  | array (items : List Json)
  | object (members : List (List UInt8 × Json))

mutual

/-- How many containers enclose the innermost value. -/
def Json.depth : Json → ℕ
  | .null => 0
  | .bool _ => 0
  | .number _ => 0
  | .string _ => 0
  | .array vs => depthItems vs
  | .object ms => depthMembers ms

def depthItems : List Json → ℕ
  | [] => 0
  | v :: vs => max (v.depth + 1) (depthItems vs)

def depthMembers : List (List UInt8 × Json) → ℕ
  | [] => 0
  | (_, v) :: ms => max (v.depth + 1) (depthMembers ms)

end

/-! ## The grammar -/

def isJsonSpace (c : UInt8) : Bool :=
  c = space || c = tab || c = cr || c = lf

def Ws (w : List UInt8) : Prop := ∀ c ∈ w, isJsonSpace c = true

/-- The letters of the two-character escapes. -/
def escapes : List UInt8 := text "\"\\/bfnrt"

/-- The inside of a string. -/
inductive Chars : List UInt8 → Prop where
  | nil : Chars []
  | plain {c : UInt8} {s : List UInt8} :
      32 ≤ c → c ≠ quote → c ≠ backslash → Chars s → Chars (c :: s)
  | escape {c : UInt8} {s : List UInt8} :
      c ∈ escapes → Chars s → Chars (backslash :: c :: s)
  | unicode {h s : List UInt8} :
      h.length = 4 → (∀ c ∈ h, (digitValue c).isSome = true) → Chars s →
      Chars (backslash :: 117 :: (h ++ s))

def Digits (ds : List UInt8) : Prop := ds ≠ [] ∧ ∀ c ∈ ds, isDigit c = true

/-- `int`: zero, or digits that do not start with zero. -/
def IntPart (s : List UInt8) : Prop :=
  s = [zero] ∨ Digits s ∧ s.head? ≠ some zero

/-- `[ frac ]` -/
def Frac (s : List UInt8) : Prop := s = [] ∨ ∃ ds, Digits ds ∧ s = dot :: ds

/-- `[ exp ]` -/
def Exp (s : List UInt8) : Prop :=
  s = [] ∨ ∃ e sign ds, (e = 101 ∨ e = 69) ∧
    (sign = [] ∨ sign = [plus] ∨ sign = [minus]) ∧ Digits ds ∧
    s = e :: (sign ++ ds)

def Number (n : List UInt8) : Prop :=
  ∃ sign int frac exp, (sign = [] ∨ sign = [minus]) ∧ IntPart int ∧
    Frac frac ∧ Exp exp ∧ n = sign ++ (int ++ (frac ++ exp))

mutual

/-- `value`, without the white space around it. -/
inductive Value : Json → List UInt8 → Prop where
  | null : Value .null (text "null")
  | true : Value (.bool .true) (text "true")
  | false : Value (.bool .false) (text "false")
  | number {n : List UInt8} : Number n → Value (.number n) n
  | string {cs : List UInt8} : Chars cs →
      Value (.string cs) (quote :: (cs ++ [quote]))
  | emptyArray {w : List UInt8} : Ws w →
      Value (.array []) (lbracket :: (w ++ [rbracket]))
  | array {vs : List Json} {s : List UInt8} : Elements vs s →
      Value (.array vs) (lbracket :: (s ++ [rbracket]))
  | emptyObject {w : List UInt8} : Ws w →
      Value (.object []) (lbrace :: (w ++ [rbrace]))
  | object {ms : List (List UInt8 × Json)} {s : List UInt8} :
      Members ms s → Value (.object ms) (lbrace :: (s ++ [rbrace]))

/-- The items of an array that has some, with the white space around them. -/
inductive Elements : List Json → List UInt8 → Prop where
  | last {w w' s : List UInt8} {v : Json} :
      Ws w → Value v s → Ws w' → Elements [v] (w ++ (s ++ w'))
  | cons {w w' s r : List UInt8} {v : Json} {vs : List Json} :
      Ws w → Value v s → Ws w' → Elements vs r →
      Elements (v :: vs) (w ++ (s ++ (w' ++ comma :: r)))

inductive Members : List (List UInt8 × Json) → List UInt8 → Prop where
  | last {w w₁ w₂ w' k s : List UInt8} {v : Json} :
      Ws w → Chars k → Ws w₁ → Ws w₂ → Value v s → Ws w' →
      Members [(k, v)]
        (w ++ (quote :: (k ++ quote :: (w₁ ++ colon :: (w₂ ++ (s ++ w'))))))
  | cons {w w₁ w₂ w' k s r : List UInt8} {v : Json}
      {ms : List (List UInt8 × Json)} :
      Ws w → Chars k → Ws w₁ → Ws w₂ → Value v s → Ws w' → Members ms r →
      Members ((k, v) :: ms)
        (w ++ (quote :: (k ++ quote :: (w₁ ++ colon :: (w₂ ++ (s ++
          (w' ++ comma :: r)))))))

end

/-- `JSON-text`: one value between white space. -/
def JsonText (v : Json) (s : List UInt8) : Prop :=
  ∃ w x w', Ws w ∧ Value v x ∧ Ws w' ∧ s = w ++ (x ++ w')

end Nawam
