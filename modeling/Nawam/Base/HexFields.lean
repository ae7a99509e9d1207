import Nawam.Base.CString

/-!
# Hexadecimal fields

What `sprintf` writes for a format of fixed-width hexadecimal fields, some of
them after a dash, and what `sscanf` reads for the same format. A field that
`%0wX` wrote of a value of at most `w` digits is as wide as `%wx` reads, so
the fields need no separator: the reader finds the values again.
-/

namespace Nawam

/-- The upper-case digit of a value below sixteen. -/
def hexDigit (d : ℕ) : UInt8 :=
  if d < 10 then .ofNat (48 + d) else .ofNat (65 + (d - 10))

/-- `%0wX`, of a value of at most `w` digits. -/
def hexField : ℕ → ℕ → List UInt8
  | 0, _ => []
  | w + 1, v => hexField w (v / 16) ++ [hexDigit (v % 16)]

/-- `%wx`: blanks are skipped; a sign and `0x` count towards the width, and a
field without a digit is no match. A minus sign negates modulo `2 ^ 32`. -/
def scanHex (w : ℕ) (s : List UInt8) : Option (ℕ × List UInt8) :=
  let s := s.dropWhile isSpace
  let (neg, t) := signOf s
  let field := t.take (w - (s.length - t.length))
  let mark := if field.take 2 = [48, 120] ∨ field.take 2 = [48, 88] then 2 else 0
  let digits := (field.drop mark).takeWhile (isDigitOf 16)
  if digits = [] then none
  else
    let v := leadingNumeral 16 digits
    some (if neg then (2 ^ 32 - v) % 2 ^ 32 else v, t.drop (mark + digits.length))

/-- Fields one after the other, each with whether a dash stands before it. -/
abbrev HexFormat : Type := List (Bool × ℕ)

/-- What `sprintf` writes. -/
def printHex : HexFormat → List ℕ → List UInt8
  | (dash, w) :: format, v :: vs =>
      (if dash then [45] else []) ++ hexField w v ++ printHex format vs
  | _, _ => []

def scanDash (dash : Bool) (s : List UInt8) : Option (List UInt8) :=
  if dash then
    match s with
    | 45 :: s => some s
    | _ => none
  else some s

/-- What `sscanf` reads, where every field matches. -/
def scanHexes : HexFormat → List UInt8 → Option (List ℕ)
  | [], _ => some []
  | (dash, w) :: format, s => do
      let s ← scanDash dash s
      let (v, s) ← scanHex w s
      let vs ← scanHexes format s
      return v :: vs

/-! ## Reading back what was written -/

theorem digitValue_hexDigit : ∀ d < 16, digitValue (hexDigit d) = some d := by
  decide

theorem isDigitOf_hexDigit {d : ℕ} (h : d < 16) :
    isDigitOf 16 (hexDigit d) = true := by
  simp [isDigitOf, digitValue_hexDigit d h, h]

@[simp] theorem hexField_length : ∀ w v : ℕ, (hexField w v).length = w
  | 0, _ => rfl
  | w + 1, v => by simp [hexField, hexField_length w]

theorem isDigitOf_hexField : ∀ (w v : ℕ), ∀ c ∈ hexField w v, isDigitOf 16 c = true
  | 0, _, c, hc => by simp [hexField] at hc
  | w + 1, v, c, hc => by
      rcases List.mem_append.mp hc with hc | hc
      · exact isDigitOf_hexField w _ c hc
      · rw [List.mem_singleton.mp hc]
        exact isDigitOf_hexDigit (Nat.mod_lt _ (by decide))

theorem numeralFrom_append {base : ℕ} (cs : List UInt8) (c : UInt8) (v : ℕ) :
    numeralFrom base v (cs ++ [c]) =
      (numeralFrom base v cs).bind fun w => numeralFrom base w [c] := by
  induction cs generalizing v with
  | nil => rfl
  | cons x cs ih =>
      simp only [List.cons_append, numeralFrom]
      cases digitValue x with
      | none => rfl
      | some d =>
          by_cases hd : d < base
          · simp only [hd, if_true]
            exact ih _
          · simp [hd]

theorem numeralFrom_hexField : ∀ (w v : ℕ), v < 16 ^ w →
    numeralFrom 16 0 (hexField w v) = some v
  | 0, v, h => by
      have hv : v = 0 := by simpa using h
      rw [hv]
      rfl
  | w + 1, v, h => by
      have hdiv : v / 16 < 16 ^ w := by
        rw [Nat.div_lt_iff_lt_mul (by decide)]
        exact pow_succ 16 w ▸ h
      have hmod : v % 16 < 16 := Nat.mod_lt _ (by decide)
      rw [hexField, numeralFrom_append, numeralFrom_hexField w _ hdiv]
      simp only [Option.bind_some, numeralFrom, digitValue_hexDigit _ hmod, hmod,
        if_true, Option.some.injEq]
      omega

theorem not_mark_of_digits {cs : List UInt8} (h : ∀ c ∈ cs, isDigitOf 16 c = true) :
    ¬(cs.take 2 = [48, 120] ∨ cs.take 2 = [48, 88]) := by
  have hmem {x : UInt8} (hx : cs.take 2 = [48, x]) : isDigitOf 16 x = true :=
    h x (List.mem_of_mem_take (hx ▸ List.mem_cons_of_mem _ List.mem_cons_self))
  rintro (hx | hx)
  · exact absurd (hmem hx) (by decide)
  · exact absurd (hmem hx) (by decide)

/-- **A field is read back.** It fills the width, so what follows it is not
looked at. -/
theorem scanHex_hexField {w v : ℕ} (hw : 0 < w) (hv : v < 16 ^ w)
    (rest : List UInt8) : scanHex w (hexField w v ++ rest) = some (v, rest) := by
  have hdigits := isDigitOf_hexField w v
  have hlen : (hexField w v).length = w := hexField_length w v
  have hvalue : leadingNumeral 16 (hexField w v) = v :=
    leadingNumeral_eq (numeralFrom_hexField w v hv)
  generalize hexField w v = cs at hdigits hlen hvalue
  obtain ⟨c, cs, rfl⟩ := List.exists_cons_of_length_pos (hlen ▸ hw)
  have hc : isDigitOf 16 c = true := hdigits c List.mem_cons_self
  have hdrop : (c :: cs ++ rest).dropWhile isSpace = c :: cs ++ rest := by
    simp [(not_space_of_isDigitOf hc).1]
  have hsign : signOf (c :: cs ++ rest) = (false, c :: cs ++ rest) :=
    signOf_cons_of_digit hc
  have hfield : (c :: cs ++ rest).take w = c :: cs := by
    rw [← hlen, List.take_left]
  have hall : (c :: cs).takeWhile (isDigitOf 16) = c :: cs :=
    List.takeWhile_eq_self_iff.mpr hdigits
  have hmark := not_mark_of_digits hdigits
  simp only [scanHex, hdrop, hsign, Nat.sub_self, Nat.sub_zero, hfield, hmark,
    if_false, List.drop_zero, hall, hvalue, Nat.zero_add]
  simp

/-- **What `sprintf` wrote, `sscanf` reads.** -/
theorem scanHexes_printHex : ∀ {format : HexFormat} {vs : List ℕ}
    (_ : List.Forall₂ (fun f v => 0 < f.2 ∧ v < 16 ^ f.2) format vs)
    (rest : List UInt8), scanHexes format (printHex format vs ++ rest) = some vs
  | [], _, .nil, _ => rfl
  | (dash, w) :: format, v :: vs, .cons hf h, rest => by
      have hdash (s : List UInt8) :
          scanDash dash ((if dash then [45] else []) ++ s) = some s := by
        cases dash with
        | false => rfl
        | true => rfl
      simp only [scanHexes, printHex, List.append_assoc, hdash, Option.bind_eq_bind,
        Option.bind_some, scanHex_hexField hf.1 hf.2, scanHexes_printHex h]
      rfl

/-! ## What is read at all -/

/-- What `%wx` takes: blanks, and up to `w` characters of a sign, `0x` and digits -/
structure HexText (w : ℕ) where
  blanks : List UInt8
  sign : List UInt8
  mark : List UInt8
  digits : List UInt8
  blanks_space : ∀ c ∈ blanks, isSpace c = true
  sign_mem : sign ∈ [[], [43], [45]]
  mark_mem : mark ∈ [[], [48, 120], [48, 88]]
  digits_ne : digits ≠ []
  digits_hex : ∀ c ∈ digits, isDigitOf 16 c = true
  width : sign.length + mark.length + digits.length ≤ w

def HexText.text {w : ℕ} (t : HexText w) : List UInt8 := t.blanks ++ (t.sign ++ (t.mark ++ t.digits))

/-- Nothing of what is behind the text can be taken as well: no digit, unless the
width is used up, and no `x` that would make a mark of a zero. -/
structure HexText.Ends {w : ℕ} (t : HexText w) (rest : List UInt8) : Prop where
  full : t.sign.length + t.mark.length + t.digits.length = w ∨
    ∀ c ∈ rest.head?, isDigitOf 16 c = false
  unmarked : t.mark = [] → t.sign.length + 2 ≤ w →
    (t.digits ++ rest).take 2 ≠ [48, 120] ∧ (t.digits ++ rest).take 2 ≠ [48, 88]

/-- The string begins with texts for all fields, each as long as it can be. -/
def HexTexts : HexFormat → List UInt8 → Prop
  | [], _ => True
  | (dash, w) :: format, s =>
      ∃ (t : HexText w) (rest : List UInt8),
        s = (if dash then [45] else []) ++ (t.text ++ rest) ∧ t.Ends rest ∧
          HexTexts format rest

theorem signOf_split (s : List UInt8) :
    ∃ sign ∈ [[], [43], [45]], s = sign ++ (signOf s).2 := by
  unfold signOf
  split
  · exact ⟨[43], by decide, rfl⟩
  · exact ⟨[45], by decide, rfl⟩
  · exact ⟨[], by decide, rfl⟩

/-- What stands where `takeWhile` stops is not taken. -/
theorem not_of_getElem?_takeWhile {α : Type} {p : α → Bool} {l : List α} {a : α}
    (h : l[(l.takeWhile p).length]? = some a) : p a = false := by
  induction l with
  | nil => cases h
  | cons x l ih =>
      cases hx : p x with
      | false =>
          rw [List.takeWhile_cons_of_neg (by simp [hx])] at h
          exact Option.some.inj h ▸ hx
      | true =>
          rw [List.takeWhile_cons_of_pos hx] at h
          exact ih h

/-- What is passed over in front of the digits is a mark. -/
theorem take_mark {field : List UInt8} {n : ℕ}
    (hn : (if field.take 2 = [48, 120] ∨ field.take 2 = [48, 88] then 2 else 0) = n) :
    field.take n ∈ ([[], [48, 120], [48, 88]] : List (List UInt8)) ∧
      (field.take n).length = n := by
  rw [← hn]
  split
  case isTrue hx => rcases hx with hx | hx <;> rw [hx] <;> decide
  case isFalse => exact ⟨by rw [List.take_zero]; decide, by rw [List.take_zero]; rfl⟩

theorem take_append_takeWhile_prefix {α : Type} (p : α → Bool) (field : List α) (n : ℕ) :
    field.take n ++ (field.drop n).takeWhile p <+: field := by
  have h := (List.prefix_append_right_inj (field.take n)).mpr
    (List.takeWhile_prefix p (l := field.drop n))
  rwa [List.take_append_drop] at h

/-- What is read is a text of the field, and as long as it can be. -/
theorem scanHex_sound {w v : ℕ} {s rest : List UInt8} (h : scanHex w s = some (v, rest)) :
    ∃ t : HexText w, s = t.text ++ rest ∧ t.Ends rest := by
  obtain ⟨sign, hsign, hs⟩ := signOf_split (s.dropWhile isSpace)
  rw [scanHex] at h
  generalize hneg : signOf (s.dropWhile isSpace) = r at h hs
  obtain ⟨neg, t⟩ := r
  dsimp only at h hs
  have hwidth : (s.dropWhile isSpace).length - t.length = sign.length := by
    rw [hs, List.length_append, Nat.add_sub_cancel_right]
  rw [hwidth] at h
  obtain ⟨field, hfield⟩ : ∃ field, t.take (w - sign.length) = field := ⟨_, rfl⟩
  rw [hfield] at h
  obtain ⟨n, hn⟩ : ∃ n, (if field.take 2 = [48, 120] ∨ field.take 2 = [48, 88] then 2 else 0) = n :=
    ⟨_, rfl⟩
  rw [hn] at h
  obtain ⟨hmark, hlen⟩ := take_mark hn
  obtain ⟨digits, hdigits⟩ : ∃ digits, (field.drop n).takeWhile (isDigitOf 16) = digits := ⟨_, rfl⟩
  rw [hdigits] at h
  split at h
  case isTrue => cases h
  case isFalse hne =>
      obtain ⟨-, rfl⟩ := Prod.mk.inj (Option.some.inj h)
      have hbegins := take_append_takeWhile_prefix (isDigitOf 16) field n
      rw [hdigits] at hbegins
      have hlength : (field.take n ++ digits).length = n + digits.length := by
        rw [List.length_append, hlen]
      have hbound := hbegins.length_le
      rw [hlength, ← hfield, List.length_take] at hbound
      have hpos := List.length_pos_iff.mpr hne
      have hrest := List.prefix_iff_eq_append.mp (hbegins.trans (hfield ▸ List.take_prefix _ t))
      rw [hlength] at hrest
      refine ⟨⟨s.takeWhile isSpace, sign, field.take n, digits, ?_, hsign, hmark, hne, ?_, ?_⟩,
        ?_, ?_, ?_⟩
      · exact fun c hc => List.mem_takeWhile_imp hc
      · rw [← hdigits]
        exact fun c hc => List.mem_takeWhile_imp hc
      · rw [hlen]
        omega
      · rw [HexText.text]
        dsimp only
        rw [List.append_assoc, List.append_assoc, hrest, ← hs, List.takeWhile_append_dropWhile]
      · dsimp only
        rw [hlen]
        refine or_iff_not_imp_left.mpr fun hless c hc => ?_
        -- the digits end in front of the end of the field
        have hnext : (field.drop n)[digits.length]? = some c := by
          rw [List.getElem?_drop, ← hfield, List.getElem?_take_of_lt (by omega),
            ← List.head?_drop]
          exact hc
        rw [← hdigits] at hnext
        exact not_of_getElem?_takeWhile hnext
      · dsimp only
        intro hnone hroom
        have hzero : n = 0 := by
          rw [← hlen, hnone]
          rfl
        rw [hzero] at hn hrest
        rw [List.take_zero, List.nil_append, Nat.zero_add] at hrest
        have hsame : field.take 2 = t.take 2 := by
          rw [← hfield, List.take_take, Nat.min_eq_left (by omega)]
        rw [hzero, Nat.zero_add, hrest, ← hsame, ← not_or]
        intro hx
        rw [if_pos hx] at hn
        cases hn

section

variable {w : ℕ} (t : HexText w) {rest : List UInt8}

/-- The mark and the digits begin with a digit, be it the zero of the mark. -/
theorem HexText.exists_head (rest : List UInt8) :
    ∃ c cs, t.mark ++ (t.digits ++ rest) = c :: cs ∧ isDigitOf 16 c = true := by
  obtain ⟨d, ds, hd⟩ := List.exists_cons_of_ne_nil t.digits_ne
  have hmark := t.mark_mem
  simp only [List.mem_cons, List.not_mem_nil, or_false] at hmark
  rcases hmark with hmark | hmark | hmark
  · rw [hmark, hd]
    exact ⟨d, _, rfl, t.digits_hex d (hd ▸ List.mem_cons_self)⟩
  · rw [hmark]
    exact ⟨48, _, rfl, by decide⟩
  · rw [hmark]
    exact ⟨48, _, rfl, by decide⟩

theorem HexText.dropWhile_text (rest : List UInt8) :
    (t.text ++ rest).dropWhile isSpace = t.sign ++ (t.mark ++ (t.digits ++ rest)) := by
  obtain ⟨c, cs, hcs, hc⟩ := t.exists_head rest
  rw [HexText.text, List.append_assoc, List.dropWhile_append_of_pos t.blanks_space,
    List.append_assoc, List.append_assoc, hcs]
  have hsign := t.sign_mem
  simp only [List.mem_cons, List.not_mem_nil, or_false] at hsign
  rcases hsign with hsign | hsign | hsign
  · rw [hsign, List.nil_append,
      List.dropWhile_cons_of_neg (by simp [(not_space_of_isDigitOf hc).1])]
  · rw [hsign]
    rfl
  · rw [hsign]
    rfl

theorem HexText.signOf_text (rest : List UInt8) :
    ∃ neg, signOf (t.sign ++ (t.mark ++ (t.digits ++ rest)))
      = (neg, t.mark ++ (t.digits ++ rest)) := by
  obtain ⟨c, cs, hcs, hc⟩ := t.exists_head rest
  rw [hcs]
  have hsign := t.sign_mem
  simp only [List.mem_cons, List.not_mem_nil, or_false] at hsign
  rcases hsign with hsign | hsign | hsign
  · rw [hsign]
    exact ⟨false, signOf_cons_of_digit hc⟩
  · rw [hsign]
    exact ⟨false, rfl⟩
  · rw [hsign]
    exact ⟨true, rfl⟩

variable {t}

/-- With room for `k` bytes behind the digits, the mark is found where it is, and
nothing else is taken for one. -/
theorem HexText.Ends.mark_length {k : ℕ} (hends : t.Ends rest)
    (hk : w - t.sign.length = t.mark.length + (t.digits.length + k)) :
    (if (t.mark ++ (t.digits ++ rest.take k)).take 2 = [48, 120] ∨
      (t.mark ++ (t.digits ++ rest.take k)).take 2 = [48, 88] then 2 else 0)
      = t.mark.length := by
  have hmark := t.mark_mem
  simp only [List.mem_cons, List.not_mem_nil, or_false] at hmark
  rcases hmark with hmark | hmark | hmark
  · rw [hmark, List.nil_append, ← List.take_length_add_append, List.take_take]
    rw [hmark, List.length_nil, Nat.zero_add] at hk
    refine if_neg fun hx => ?_
    have htwo : 2 ≤ t.digits.length + k := by
      by_contra hshort
      rw [Nat.min_eq_right (by omega)] at hx
      have hlen := List.length_take_le (t.digits.length + k) (t.digits ++ rest)
      rcases hx with hx | hx
      all_goals
        rw [hx] at hlen
        simp only [List.length_cons, List.length_nil] at hlen
        omega
    rw [Nat.min_eq_left htwo] at hx
    obtain ⟨hlower, hupper⟩ := hends.unmarked hmark (by omega)
    exact hx.elim hlower hupper
  · rw [hmark]
    exact if_pos (.inl rfl)
  · rw [hmark]
    exact if_pos (.inr rfl)

/-- The digits end where the text does. -/
theorem HexText.Ends.takeWhile_digits {k : ℕ} (hends : t.Ends rest)
    (hk : w - t.sign.length = t.mark.length + (t.digits.length + k)) :
    (t.digits ++ rest.take k).takeWhile (isDigitOf 16) = t.digits := by
  rw [List.takeWhile_append_of_pos t.digits_hex]
  have hnone : (rest.take k).takeWhile (isDigitOf 16) = [] := by
    rcases hends.full with hwide | hstop
    · obtain rfl : k = 0 := by omega
      rfl
    · cases k with
      | zero => rfl
      | succ k =>
          cases rest with
          | nil => rfl
          | cons r rest =>
              rw [List.take_succ_cons,
                List.takeWhile_cons_of_neg (by rw [hstop r rfl]; decide)]
  rw [hnone, List.append_nil]

/-- A text that is as long as it can be is read. -/
theorem scanHex_complete (hends : t.Ends rest) :
    ∃ v, scanHex w (t.text ++ rest) = some (v, rest) := by
  obtain ⟨neg, hneg⟩ := t.signOf_text rest
  have hused : (t.sign ++ (t.mark ++ (t.digits ++ rest))).length -
      (t.mark ++ (t.digits ++ rest)).length = t.sign.length := by
    rw [List.length_append, Nat.add_sub_cancel_right]
  -- the field is the mark, the digits, and what of the rest has room
  obtain ⟨k, hk⟩ : ∃ k, w - t.sign.length = t.mark.length + (t.digits.length + k) :=
    ⟨w - t.sign.length - t.mark.length - t.digits.length, by have := t.width; omega⟩
  have hfield : (t.mark ++ (t.digits ++ rest)).take (w - t.sign.length)
      = t.mark ++ (t.digits ++ rest.take k) := by
    rw [hk, List.take_length_add_append, List.take_length_add_append]
  refine ⟨if neg = true then (2 ^ 32 - leadingNumeral 16 t.digits) % 2 ^ 32
    else leadingNumeral 16 t.digits, ?_⟩
  rw [scanHex, t.dropWhile_text]
  dsimp only
  rw [hneg]
  dsimp only
  rw [hused, hfield, hends.mark_length hk, List.drop_left, hends.takeWhile_digits hk,
    if_neg t.digits_ne, ← List.append_assoc t.mark, ← List.length_append, List.drop_left]

end

/-- **The fields are read** if and only if the string begins with a text for
each. -/
theorem hexTexts_iff : ∀ {format : HexFormat} {s : List UInt8},
    HexTexts format s ↔ (scanHexes format s).isSome = true
  | [], _ => iff_of_true trivial rfl
  | (dash, w) :: format, s => by
      rw [Option.isSome_iff_exists]
      simp only [scanHexes, Option.bind_eq_bind, Option.bind_eq_some_iff]
      constructor
      · rintro ⟨t, rest, rfl, hends, hfields⟩
        obtain ⟨vs, hvs⟩ := Option.isSome_iff_exists.mp (hexTexts_iff.mp hfields)
        obtain ⟨v, hv⟩ := scanHex_complete hends
        refine ⟨v :: vs, t.text ++ rest, ?_, (v, rest), hv, vs, hvs, rfl⟩
        cases dash with
        | false => rfl
        | true => rfl
      · rintro ⟨_, s₁, hdash, ⟨v, rest⟩, hfield, vs, hfields, -⟩
        obtain ⟨t, rfl, hends⟩ := scanHex_sound hfield
        refine ⟨t, rest, ?_, hends,
          hexTexts_iff.mpr (Option.isSome_iff_exists.mpr ⟨vs, hfields⟩)⟩
        cases dash with
        | false =>
            obtain rfl := Option.some.inj hdash
            rfl
        | true =>
            unfold scanDash at hdash
            rw [if_pos rfl] at hdash
            split at hdash
            · obtain rfl := Option.some.inj hdash
              rfl
            · cases hdash

end Nawam
