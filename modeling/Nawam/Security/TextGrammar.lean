import Nawam.Security.Text

/-!
# What the security text validator accepts

The grammar of the downloaded lists, stated over the lines of the text and
independently of the scanner, and the theorem that the validator accepts
exactly the texts of a grammar: `nawamSecurityTextValid_eq_iff`.

The grammar has one parameter, the products that may carry a date column. The
comment in the source allows it to the standard `sbat` row only; the code
looks at the four bytes before the comma, so it allows it to every product
that *ends* in `sbat`.
-/

namespace Nawam

open Ascii

/-! ## The grammar -/

/-- A data row: a line that is neither blank nor a comment. -/
def isDataRow (l : List UInt8) : Bool :=
  l ≠ [] && l.head? ≠ some hash

/-- A version column: a decimal or `0x`-hexadecimal numeral. -/
def VersionColumn (column : List UInt8) (v : ℕ) : Prop :=
  Numeral 10 column v ∨ ∃ digits, column = 48 :: 120 :: digits ∧
    Numeral 16 digits v

/-- `product,version` or, for the products of `dated`, `product,version,date`. -/
def SbatRow (dated : List UInt8 → Prop) (l : List UInt8) : Prop :=
  ∃ product column tail v, l = product ++ comma :: (column ++ tail) ∧
    1 ≤ product.length ∧ product.length ≤ 127 ∧
    (∀ c ∈ product, isProductChar c = true) ∧
    VersionColumn column v ∧ 1 ≤ v ∧ v ≤ uint32Max ∧
    (tail = [] ∨ dated product ∧ ∃ date, tail = comma :: date ∧
      date.length = 10 ∧ ∀ c ∈ date, isDigit c = true)

/-- Exactly 40 hexadecimal digits. -/
def ThumbprintRow (l : List UInt8) : Prop :=
  l.length = 40 ∧ ∀ c ∈ l, (digitValue c).isSome = true

def DataRow (dated : List UInt8 → Prop) (kind : TextKind) (l : List UInt8) :
    Prop :=
  match kind with
  | .sbat => SbatRow dated l
  | .thumbprint => ThumbprintRow l

/-- A text of the grammar with `n` data rows. -/
def SecurityText (dated : List UInt8 → Prop) (kind : TextKind)
    (text : List UInt8) (n : ℕ) : Prop :=
  text.length ≤ 64 * 1024 ∧ 1 ≤ n ∧ ∃ ls, Lines text ls ∧
    (∀ l ∈ ls, isDataRow l = true → DataRow dated kind l) ∧
    ls.countP isDataRow = n

/-- The product of the standard SBAT format version row. -/
def IsSbat (product : List UInt8) : Prop := product = sbatName

/-- What the code tests for: the product ends in `sbat`. -/
def EndsInSbat (product : List UInt8) : Prop := sbatName <:+ product

/-! ## Digits and versions -/

theorem digitValue_comma : digitValue comma = none := by decide

/-- What may follow a column: nothing, or a comma. -/
def ColumnEnd (tail : List UInt8) : Prop :=
  tail = [] ∨ tail.head? = some comma

/-- The version loop reads the longest run up to a comma as a checked
numeral. -/
theorem versionLoop_eq_some_iff {base : ℕ} (hb : base ≤ 16) :
    ∀ {s : List UInt8} {v w : ℕ} {tail : List UInt8},
      versionLoop base v s = some (w, tail) ↔
        ∃ digits, s = digits ++ tail ∧ ColumnEnd tail ∧
          checkedNumeral uint32Max base v digits = some w
  | [], v, w, tail => by
      simp only [versionLoop, Option.some.injEq, Prod.mk.injEq]
      constructor
      · rintro ⟨rfl, rfl⟩
        exact ⟨[], rfl, Or.inl rfl, rfl⟩
      · rintro ⟨digits, hs, -, hv⟩
        obtain ⟨rfl, rfl⟩ := List.append_eq_nil_iff.mp hs.symm
        exact ⟨by simpa [checkedNumeral] using hv, rfl⟩
  | c :: s, v, w, tail => by
      simp only [versionLoop]
      by_cases hc : c = comma
      · subst hc
        rw [if_pos rfl]
        simp only [Option.some.injEq, Prod.mk.injEq]
        constructor
        · rintro ⟨rfl, rfl⟩
          exact ⟨[], rfl, Or.inr rfl, rfl⟩
        · rintro ⟨digits, hs, -, hv⟩
          cases digits with
          | nil => exact ⟨by simpa [checkedNumeral] using hv, by simpa using hs⟩
          | cons d ds =>
              obtain ⟨rfl, -⟩ := List.cons.inj hs
              simp [checkedNumeral, digitValue_comma] at hv
      · rw [if_neg hc, nawamHexDigitUnsigned_eq]
        have hstep : (∃ digits, c :: s = digits ++ tail ∧ ColumnEnd tail ∧
              checkedNumeral uint32Max base v digits = some w) ↔
            ∃ digits, s = digits ++ tail ∧ ColumnEnd tail ∧
              checkedNumeral uint32Max base v (c :: digits) = some w := by
          constructor
          · rintro ⟨digits, hs, htail, hv⟩
            cases digits with
            | nil =>
                rw [List.nil_append] at hs
                subst hs
                rcases htail with h | h
                · simp at h
                · simp only [List.head?_cons, Option.some.injEq] at h
                  exact absurd h hc
            | cons d ds =>
                obtain ⟨rfl, rfl⟩ := List.cons.inj hs
                exact ⟨ds, rfl, htail, hv⟩
          · rintro ⟨digits, rfl, htail, hv⟩
            exact ⟨c :: digits, rfl, htail, hv⟩
        rw [hstep]
        cases hd : digitValue c with
        | none =>
            have hle : base ≤ uint32Max := hb.trans (by decide)
            simp [checkedNumeral, hd, hle]
        | some d =>
            simp only [Option.getD_some, checkedNumeral, hd]
            split
            · simp
            · exact versionLoop_eq_some_iff hb

/-- A decimal numeral that starts `0x…` stops at the `x`. -/
theorem not_numeral_ten_of_hexMark {column tail rest : List UInt8} {v : ℕ}
    (hs : 48 :: 120 :: rest = column ++ tail) (htail : ColumnEnd tail) :
    ¬ Numeral 10 column v := by
  rintro ⟨hne, hval⟩
  match column, hs with
  | [], _ => exact hne rfl
  | [_], hs =>
      obtain ⟨-, rfl⟩ := List.cons.inj hs
      rcases htail with h | h
      · simp at h
      · simp at h
  | _ :: x :: _, hs =>
      obtain ⟨-, hs⟩ := List.cons.inj hs
      obtain ⟨rfl, -⟩ := List.cons.inj hs
      have := isDigitOf_of_numeralFrom hval 120 (by simp)
      exact absurd this (by decide)

theorem versionBase_cases (s : List UInt8) :
    (∃ digits, s = 48 :: 120 :: digits ∧ versionBase s = (16, digits)) ∨
      ((∀ digits, s ≠ 48 :: 120 :: digits) ∧ versionBase s = (10, s)) := by
  unfold versionBase
  split
  · exact Or.inl ⟨_, rfl, rfl⟩
  · rename_i h
    exact Or.inr ⟨fun digits hs => h digits hs, rfl⟩

theorem numeral_of_versionLoop {base : ℕ} (hb : base ≤ 16) (hb0 : 0 < base)
    {s tail : List UInt8} {v : ℕ} :
    (versionLoop base 0 s = some (v, tail) ∧ tail.length ≠ s.length) ↔
      ∃ digits, s = digits ++ tail ∧ ColumnEnd tail ∧
        Numeral base digits v ∧ v ≤ uint32Max := by
  have hl : base ≤ uint32Max + 1 := hb.trans (by decide)
  rw [versionLoop_eq_some_iff hb]
  constructor
  · rintro ⟨⟨digits, rfl, htail, hv⟩, hlen⟩
    rw [checkedNumeral_eq_some_iff hb0 hl (Nat.zero_le _)] at hv
    refine ⟨digits, rfl, htail, ⟨?_, hv.1⟩, hv.2⟩
    rintro rfl
    simp at hlen
  · rintro ⟨digits, rfl, htail, ⟨hne, hval⟩, hv⟩
    refine ⟨⟨digits, rfl, htail, ?_⟩, ?_⟩
    · exact (checkedNumeral_eq_some_iff hb0 hl (Nat.zero_le _)).mpr ⟨hval, hv⟩
    · have := List.length_pos_iff.mpr hne
      simp
      omega

/-- The second column as the code reads it. -/
theorem versionColumn_iff {s tail : List UInt8} {v : ℕ} :
    (versionLoop (versionBase s).1 0 (versionBase s).2 = some (v, tail) ∧
        tail.length ≠ (versionBase s).2.length) ↔
      ∃ column, s = column ++ tail ∧ ColumnEnd tail ∧
        VersionColumn column v ∧ v ≤ uint32Max := by
  rcases versionBase_cases s with ⟨digits, rfl, hbase⟩ | ⟨hno, hbase⟩
  · rw [hbase]
    simp only
    rw [numeral_of_versionLoop (by decide) (by decide)]
    constructor
    · rintro ⟨ds, rfl, htail, hnum, hv⟩
      exact ⟨48 :: 120 :: ds, rfl, htail, Or.inr ⟨ds, rfl, hnum⟩, hv⟩
    · rintro ⟨column, hs, htail, hdec | ⟨ds, rfl, hnum⟩, hv⟩
      · exact absurd hdec (not_numeral_ten_of_hexMark hs htail)
      · simp only [List.cons_append, List.cons.injEq, true_and] at hs
        exact ⟨ds, hs, htail, hnum, hv⟩
  · rw [hbase]
    simp only
    rw [numeral_of_versionLoop (by decide) (by decide)]
    constructor
    · rintro ⟨ds, rfl, htail, hnum, hv⟩
      exact ⟨ds, rfl, htail, Or.inl hnum, hv⟩
    · rintro ⟨column, hs, htail, hdec | ⟨ds, rfl, -⟩, hv⟩
      · exact ⟨column, hs, htail, hdec, hv⟩
      · exact absurd hs (hno _)

/-! ## Rows -/

def AtLineStart (pre : List UInt8) : Prop :=
  pre = [] ∨ pre.getLast? = some lf

/-- The absolute four-byte test is a test of the product alone: a shorter
product leaves a line feed among the four bytes. -/
theorem endsInSbat_iff {pre product post : List UInt8}
    (hpre : AtLineStart pre) :
    (¬ pre.length + product.length < 4 ∧
        ((pre ++ (product ++ post)).drop
          (pre.length + product.length - 4)).take 4 = sbatName) ↔
      EndsInSbat product := by
  have hassoc : pre ++ (product ++ post) = (pre ++ product) ++ post := by simp
  have hlen : sbatName.length = 4 := rfl
  rw [hassoc]
  constructor
  · rintro ⟨h4, heq⟩
    have hsuf : sbatName <:+ pre ++ product := by
      rw [List.drop_append_of_le_length (by simp)] at heq
      rw [List.take_append_of_le_length (by simp; omega)] at heq
      rw [List.take_of_length_le (by simp; omega)] at heq
      exact heq ▸ List.drop_suffix _ _
    rcases List.suffix_or_suffix_of_suffix hsuf
      (List.suffix_append pre product) with h | ⟨x, hx⟩
    · exact h
    · obtain ⟨z, hz⟩ := hsuf
      have hpre' : z ++ x = pre := by
        rw [← hx, ← List.append_assoc] at hz
        exact List.append_cancel_right hz
      rcases List.eq_nil_or_concat x with rfl | ⟨y, b, rfl⟩
      · rw [List.nil_append] at hx
        exact hx ▸ List.suffix_refl _
      · exfalso
        have hb : b = lf := by
          rcases hpre with rfl | hlast
          · simp at hpre'
          · rw [← hpre'] at hlast
            simpa [← List.append_assoc] using hlast
        have hmem : lf ∈ sbatName := by
          rw [← hx, hb]
          simp
        exact absurd hmem (by decide)
  · rintro ⟨x, rfl⟩
    refine ⟨by simp [hlen]; omega, ?_⟩
    have hdrop : pre.length + (x ++ sbatName).length - 4
        = (pre ++ x).length := by
      simp [hlen]
      omega
    rw [hdrop, ← List.append_assoc pre x, List.append_assoc (pre ++ x),
      List.drop_left, List.take_append_of_le_length (by simp [hlen]),
      List.take_of_length_le (by simp [hlen])]

theorem takeWhile_product {product s : List UInt8}
    (h : ∀ c ∈ product, isProductChar c = true) :
    (product ++ comma :: s).takeWhile (· ≠ comma) = product ∧
      (product ++ comma :: s).dropWhile (· ≠ comma) = comma :: s := by
  have hne : ∀ c ∈ product, decide (c ≠ comma) = true := by
    intro c hc
    rw [decide_eq_true_eq]
    rintro rfl
    exact absurd (h comma hc) (by decide)
  constructor
  · rw [List.takeWhile_append_of_pos hne]
    simp
  · rw [List.dropWhile_append_of_pos hne]
    simp

/-- What stands after the product, once its own characters are right: the
comma, a version, and possibly a date. -/
theorem sbatRowValid_product {text product s : List UInt8} {start : ℕ}
    (hall : ∀ c ∈ product, isProductChar c = true) :
    sbatRowValid text start (product ++ comma :: s) = true ↔
      1 ≤ product.length ∧ product.length ≤ 127 ∧
      ∃ v tail, (versionLoop (versionBase s).1 0 (versionBase s).2
          = some (v, tail) ∧ tail.length ≠ (versionBase s).2.length) ∧ 1 ≤ v ∧
        (tail = [] ∨ (¬ start + product.length < 4 ∧
            (text.drop (start + product.length - 4)).take 4 = sbatName) ∧
          tail.length = 11 ∧ ∀ c ∈ tail.tail, isDigit c = true) := by
  obtain ⟨htake, hdrop⟩ := takeWhile_product (s := s) hall
  have hall' : product.all isProductChar = true := List.all_eq_true.mpr hall
  unfold sbatRowValid
  simp only [htake, hdrop, hall', Bool.not_true, Bool.false_eq_true, if_false]
  by_cases hlen : product.length = 0 ∨ product.length > 127
  · simp only [hlen, if_true, Bool.false_eq_true, false_iff]
    omega
  · have hlen' : 1 ≤ product.length ∧ product.length ≤ 127 := by omega
    simp only [hlen, if_false, hlen', true_and]
    cases hv : versionLoop (versionBase s).1 0 (versionBase s).2 with
    | none => simp
    | some r =>
        obtain ⟨v, tail⟩ := r
        simp only [Option.some.injEq, Prod.mk.injEq, and_assoc,
          exists_and_left, exists_eq_left']
        by_cases hbad : tail.length = (versionBase s).2.length ∨ v = 0
        · simp only [hbad, if_true, Bool.false_eq_true, false_iff]
          omega
        · have hgood : tail.length ≠ (versionBase s).2.length ∧ 1 ≤ v := by
            omega
          rw [if_neg hbad]
          cases tail with
          | nil => simpa using hgood
          | cons c date =>
              simp only [List.tail_cons, reduceCtorEq, false_or, hgood.1,
                hgood.2, ne_eq, not_false_eq_true, true_and]
              split
              · rename_i h
                simp only [Bool.false_eq_true, false_iff]
                rintro ⟨h1, h2, h3, -⟩
                rcases h with h | h | h
                · exact h1 h
                · exact h h2
                · exact h h3
              · rename_i h
                simp only [not_or, not_not] at h
                simp [h]

theorem sbatRowValid_iff {pre row post : List UInt8}
    (hpre : AtLineStart pre) :
    sbatRowValid (pre ++ (row ++ post)) pre.length row = true ↔
      SbatRow EndsInSbat row := by
  constructor
  · intro h
    have hsplit := List.takeWhile_append_dropWhile (p := (· ≠ comma)) (l := row)
    have hall : ∀ c ∈ row.takeWhile (· ≠ comma), isProductChar c = true := by
      by_contra hno
      have hfalse : (row.takeWhile (· ≠ comma)).all isProductChar = false := by
        rw [Bool.eq_false_iff]
        exact fun ht => hno (List.all_eq_true.mp ht)
      unfold sbatRowValid at h
      simp only [hfalse, Bool.not_false, if_true] at h
      exact Bool.noConfusion h
    cases hdrop : row.dropWhile (· ≠ comma) with
    | nil =>
        unfold sbatRowValid at h
        simp only [hdrop] at h
        split at h
        · simp at h
        · split at h <;> simp at h
    | cons c s =>
        have hc : c = comma := by
          have hhead := List.head?_dropWhile_not (· ≠ comma) row
          rw [hdrop] at hhead
          simpa using hhead
        subst hc
        rw [hdrop] at hsplit
        generalize row.takeWhile (· ≠ comma) = product at hsplit hall
        subst hsplit
        rw [sbatRowValid_product hall] at h
        obtain ⟨h1, h127, v, tail, hver, hv, hdate⟩ := h
        obtain ⟨column, rfl, htail, hcol, hmax⟩ := versionColumn_iff.mp hver
        refine ⟨product, column, tail, v, rfl, h1, h127, hall, hcol, hv, hmax,
          ?_⟩
        rcases hdate with rfl | ⟨hsbat, h11, hdig⟩
        · exact Or.inl rfl
        · rw [List.append_assoc] at hsbat
          refine Or.inr ⟨(endsInSbat_iff hpre).mp hsbat, ?_⟩
          cases tail with
          | nil => simp at h11
          | cons c date =>
              have hc : c = comma := by
                rcases htail with h | h
                · simp at h
                · simpa using h
              exact ⟨date, by rw [hc], by simpa using h11, hdig⟩
  · rintro ⟨product, column, tail, v, rfl, h1, h127, hall, hcol, hv, hmax,
      hdate⟩
    rw [sbatRowValid_product hall, List.append_assoc]
    refine ⟨h1, h127, v, tail, versionColumn_iff.mpr
      ⟨column, rfl, ?_, hcol, hmax⟩, hv, ?_⟩
    · rcases hdate with rfl | ⟨-, date, rfl, -⟩
      · exact Or.inl rfl
      · exact Or.inr rfl
    · rcases hdate with rfl | ⟨hsbat, date, rfl, h10, hdig⟩
      · exact Or.inl rfl
      · exact Or.inr ⟨(endsInSbat_iff hpre).mpr hsbat, by simp [h10], hdig⟩

theorem rowValid_iff {kind : TextKind} {pre row post : List UInt8}
    (hpre : AtLineStart pre) :
    rowValid kind (pre ++ (row ++ post)) pre.length row = true ↔
      DataRow EndsInSbat kind row := by
  cases kind with
  | sbat => exact sbatRowValid_iff hpre
  | thumbprint =>
      simp only [rowValid, thumbprintRowValid, DataRow, ThumbprintRow,
        Bool.and_eq_true, decide_eq_true_eq, List.all_eq_true]
      simp only [nawamHexDigit_nonneg_iff]

/-! ## Lines -/

theorem textChar_facts : ∀ c : UInt8, isTextChar c = true →
    c ≠ lf ∧ ¬ ((c < 32 ∧ c ≠ tab ∧ c ≠ cr) ∨ 126 < c) ∧ c ≠ cr :=
  forall_byte (by decide +kernel)

theorem textChar_of_not : ∀ c : UInt8, c ≠ lf → c ≠ cr →
    ¬ ((c < 32 ∧ c ≠ tab ∧ c ≠ cr) ∨ 126 < c) → isTextChar c = true :=
  forall_byte (by decide +kernel)

theorem lineEnd_textChars {l s : List UInt8}
    (hl : ∀ c ∈ l, isTextChar c = true) :
    lineEnd (l ++ s) = (lineEnd s).map (· + l.length) := by
  induction l with
  | nil => simp
  | cons c l ih =>
      have hc : isTextChar c = true := hl c List.mem_cons_self
      have hfacts := textChar_facts c hc
      rw [List.cons_append, lineEnd, if_neg hfacts.1, if_neg hfacts.2.1,
        if_neg (fun h => hfacts.2.2 h.1),
        ih (fun x hx => hl x (List.mem_cons_of_mem c hx))]
      simp [Option.map_map, Function.comp_def, Nat.add_assoc]

theorem trimCr_textChars {l : List UInt8}
    (hl : ∀ c ∈ l, isTextChar c = true) : trimCr l = l := by
  unfold trimCr
  rw [if_neg]
  intro hlast
  exact (textChar_facts cr (hl cr (List.mem_of_getLast? hlast))).2.2 rfl

theorem trimCr_concat (l : List UInt8) : trimCr (l ++ [cr]) = l := by
  simp [trimCr]

/-- The offset of the next line, given the offset `n` of the line feed. -/
def nextLine (s : List UInt8) (n : ℕ) : ℕ :=
  if n < s.length then n + 1 else n

/-- The scanner on a text with a first line: where the line ends, and how
much of the text (`done`) the iteration consumes. -/
theorem lineEnd_of_firstLine {s l r : List UInt8} (h : FirstLine s l r) :
    ∃ n done, lineEnd s = some n ∧ trimCr (s.take n) = l ∧ s = done ++ r ∧
      nextLine s n = done.length ∧ (r = [] ∨ done.getLast? = some lf) := by
  cases h with
  | last _ hl =>
      refine ⟨s.length, s, ?_, ?_, by simp, by simp [nextLine], Or.inl rfl⟩
      · have := lineEnd_textChars (s := []) hl
        simpa [lineEnd] using this
      · rw [List.take_length, trimCr_textChars hl]
  | lf hl =>
      refine ⟨l.length, l ++ [lf], ?_, ?_, by simp, by simp [nextLine],
        Or.inr (by simp)⟩
      · rw [lineEnd_textChars hl]
        simp [lineEnd]
      · rw [List.take_left, trimCr_textChars hl]
  | crlf hl =>
      refine ⟨l.length + 1, l ++ [cr, lf], ?_, ?_, by simp, by simp [nextLine],
        Or.inr (by simp)⟩
      · rw [lineEnd_textChars hl]
        simp [lineEnd, Nat.add_comm]
      · rw [show (l ++ cr :: lf :: r).take (l.length + 1) = l ++ [cr] by
          simp [List.take_append]]
        exact trimCr_concat l

theorem firstLine_of_lineEnd {s : List UInt8} {n : ℕ} (hs : s ≠ [])
    (h : lineEnd s = some n) : ∃ l r, FirstLine s l r := by
  have hsplit := List.takeWhile_append_dropWhile (p := isTextChar) (l := s)
  have hl : ∀ c ∈ s.takeWhile isTextChar, isTextChar c = true :=
    fun c hc => List.mem_takeWhile_imp hc
  cases hdrop : s.dropWhile isTextChar with
  | nil =>
      rw [hdrop, List.append_nil] at hsplit
      rw [hsplit] at hl
      exact ⟨s, [], .last hs hl⟩
  | cons c r =>
      have hc : isTextChar c = false := by
        have hhead := List.head?_dropWhile_not isTextChar s
        rw [hdrop] at hhead
        simpa using hhead
      rw [hdrop] at hsplit
      generalize s.takeWhile isTextChar = l at hsplit hl
      subst hsplit
      rw [lineEnd_textChars hl, lineEnd] at h
      by_cases hlf : c = lf
      · subst hlf
        exact ⟨l, r, .lf hl⟩
      · by_cases hcr : c = cr
        · subst hcr
          rw [if_neg hlf, if_neg (by decide)] at h
          by_cases hr : r = [] ∨ r.head? ≠ some lf
          · simp [hr] at h
          · simp only [not_or, not_not] at hr
            obtain ⟨r', rfl⟩ := List.head?_eq_some_iff.mp hr.2
            exact ⟨l, r', .crlf hl⟩
        · by_cases hbad : (c < 32 ∧ c ≠ tab ∧ c ≠ cr) ∨ 126 < c
          · rw [if_neg hlf, if_pos hbad] at h
            simp at h
          · rw [textChar_of_not c hlf hcr hbad] at hc
            exact Bool.noConfusion hc

/-! ## The whole text -/

def RowsValid (kind : TextKind) (ls : List (List UInt8)) : Prop :=
  ∀ l ∈ ls, isDataRow l = true → DataRow EndsInSbat kind l

theorem isDataRow_iff {l : List UInt8} :
    isDataRow l = true ↔ ¬ (l = [] ∨ l.head? = some hash) := by
  simp [isDataRow, not_or]

/-- One iteration on a text whose next line is `l`. -/
theorem textLoop_firstLine (kind : TextKind) (count : ℕ)
    {pre s l r : List UInt8} (hpre : AtLineStart pre) (hf : FirstLine s l r) :
    ∃ pre', pre' ++ r = pre ++ s ∧ (r = [] ∨ AtLineStart pre') ∧
      ((isDataRow l = true → DataRow EndsInSbat kind l) →
        textLoop kind (pre ++ s) pre.length count =
          textLoop kind (pre' ++ r) pre'.length
            (if isDataRow l = true then count + 1 else count)) ∧
      (isDataRow l = true → ¬ DataRow EndsInSbat kind l →
        textLoop kind (pre ++ s) pre.length count = 0) := by
  obtain ⟨n, done, hn, hrow, rfl, hnext, hlast⟩ := lineEnd_of_firstLine hf
  have hpos : pre.length < (pre ++ (done ++ r)).length := by
    have := hf.length_lt
    simp only [List.length_append] at this ⊢
    omega
  have hpos' : (if pre.length + n < (pre ++ (done ++ r)).length
      then pre.length + n + 1 else pre.length + n) = (pre ++ done).length := by
    unfold nextLine at hnext
    simp only [List.length_append] at hnext ⊢
    split at hnext <;> split <;> omega
  have hvalid : rowValid kind (pre ++ (done ++ r)) pre.length l = true ↔
      DataRow EndsInSbat kind l := by
    rcases hf.split with ⟨hs, -, -⟩ | hs | hs
    · rw [hs]
      have hrowIff : rowValid kind (pre ++ (l ++ [])) pre.length l = true ↔
          DataRow EndsInSbat kind l := rowValid_iff hpre
      rwa [List.append_nil] at hrowIff
    · rw [hs]
      exact rowValid_iff hpre
    · rw [hs]
      exact rowValid_iff hpre
  have hstep : textLoop kind (pre ++ (done ++ r)) pre.length count =
      if isDataRow l = true then
        if rowValid kind (pre ++ (done ++ r)) pre.length l = true then
          textLoop kind (pre ++ (done ++ r)) (pre ++ done).length (count + 1)
        else 0
      else textLoop kind (pre ++ (done ++ r)) (pre ++ done).length count := by
    rw [textLoop, dif_pos hpos, List.drop_left, hn]
    simp only [hpos', hrow]
    by_cases hdata : isDataRow l = true
    · rw [if_neg (isDataRow_iff.mp hdata), if_pos hdata]
    · have hblank : l = [] ∨ l.head? = some hash := by
        rw [isDataRow_iff, not_not] at hdata
        exact hdata
      rw [if_pos hblank, if_neg hdata]
  refine ⟨pre ++ done, by simp, ?_, ?_, ?_⟩
  · rcases hlast with h | h
    · exact Or.inl h
    · refine Or.inr (Or.inr ?_)
      rw [List.getLast?_append, h]
      rfl
  · intro hok
    rw [hstep, List.append_assoc]
    by_cases hdata : isDataRow l = true
    · rw [if_pos hdata, if_pos hdata, if_pos (hvalid.mpr (hok hdata))]
    · rw [if_neg hdata, if_neg hdata]
  · intro hdata hno
    rw [hstep, if_pos hdata, if_neg (fun h => hno (hvalid.mp h))]

/-- The outer loop counts the data rows of the lines that are left, or
returns 0 when they are not lines of the grammar. -/
theorem textLoop_eq (kind : TextKind) :
    ∀ (n : ℕ) (s pre : List UInt8) (count : ℕ), s.length ≤ n →
      (s = [] ∨ AtLineStart pre) →
      (∃ ls, Lines s ls ∧ RowsValid kind ls ∧
        textLoop kind (pre ++ s) pre.length count
          = count + ls.countP isDataRow) ∨
      ((∀ ls, Lines s ls → ¬ RowsValid kind ls) ∧
        textLoop kind (pre ++ s) pre.length count = 0)
  | n, [], pre, count, _, _ => by
      refine Or.inl ⟨[], .nil, fun l hl => absurd hl (by simp), ?_⟩
      rw [textLoop]
      simp
  | 0, c :: s, _, _, hn, _ => absurd hn (by simp)
  | n + 1, c :: s, pre, count, hn, hpre => by
      have hne : c :: s ≠ [] := by simp
      have hpre : AtLineStart pre := hpre.resolve_left hne
      cases hend : lineEnd (c :: s) with
      | none =>
          refine Or.inr ⟨?_, ?_⟩
          · intro ls hls _
            cases hls with
            | cons hf _ =>
                obtain ⟨n, -, hsome, -⟩ := lineEnd_of_firstLine hf
                rw [hend] at hsome
                simp at hsome
          · rw [textLoop, dif_pos (by simp), List.drop_left, hend]
      | some k =>
          obtain ⟨l, r, hf⟩ := firstLine_of_lineEnd hne hend
          obtain ⟨pre', hpre', hstart, hgood, hbad⟩ :=
            textLoop_firstLine kind count hpre hf
          by_cases hok : isDataRow l = true → DataRow EndsInSbat kind l
          · rw [hgood hok]
            have hr : r.length ≤ n := by
              have := hf.length_lt
              omega
            rcases textLoop_eq kind n r pre'
              (if isDataRow l = true then count + 1 else count) hr hstart
              with ⟨ls, hls, hrows, hcount⟩ | ⟨hno, hzero⟩
            · refine Or.inl ⟨l :: ls, .cons hf hls, ?_, ?_⟩
              · intro x hx
                rcases List.mem_cons.mp hx with rfl | hx'
                · exact hok
                · exact hrows x hx'
              · rw [hcount, List.countP_cons]
                split <;> omega
            · refine Or.inr ⟨?_, hzero⟩
              intro ls hls hrows
              obtain ⟨ls', rfl, hls'⟩ := Lines.of_firstLine hf hls
              exact hno ls' hls'
                (fun x hx => hrows x (List.mem_cons_of_mem l hx))
          · obtain ⟨hdata, hrow⟩ := Classical.not_imp.mp hok
            refine Or.inr ⟨?_, hbad hdata hrow⟩
            intro ls hls hrows
            obtain ⟨ls', rfl, -⟩ := Lines.of_firstLine hf hls
            exact hrow (hrows l List.mem_cons_self hdata)

/-- **The validator accepts exactly the grammar in which a date may follow
any product that ends in `sbat`**, and returns the number of data rows. -/
theorem nawamSecurityTextValid_eq_iff {text : List UInt8} {kind : TextKind}
    {n : ℕ} (hn : 0 < n) :
    nawamSecurityTextValid text kind = n ↔
      SecurityText EndsInSbat kind text n := by
  unfold nawamSecurityTextValid SecurityText
  by_cases hsize : text.length = 0 ∨ text.length > 64 * 1024
  · rw [if_pos hsize]
    constructor
    · intro h
      omega
    · rintro ⟨hle, h1, ls, hls, -, hcount⟩
      have hnil : text = [] := List.length_eq_zero_iff.mp (by omega)
      subst hnil
      rw [Lines.unique hls .nil] at hcount
      simp only [List.countP_nil] at hcount
      omega
  · rw [if_neg hsize]
    rcases textLoop_eq kind text.length text [] 0 le_rfl (Or.inr (Or.inl rfl))
      with ⟨ls, hls, hrows, hcount⟩ | ⟨hno, hzero⟩
    · simp only [List.nil_append, List.length_nil, Nat.zero_add] at hcount
      rw [hcount]
      constructor
      · rintro rfl
        exact ⟨by omega, hn, ls, hls, hrows, rfl⟩
      · rintro ⟨-, -, ls', hls', -, hcount'⟩
        rwa [Lines.unique hls hls']
    · simp only [List.nil_append, List.length_nil] at hzero
      rw [hzero]
      constructor
      · intro h
        omega
      · rintro ⟨-, -, ls, hls, hrows, -⟩
        exact absurd hrows (hno ls hls)

/-! ## The date column

The grammar the source documents has the date on the `sbat` row only. The two
grammars differ on rows whose product ends in `sbat` without being it. -/

/-- The validator agrees with the documented grammar on a text: it returns
`n > 0` exactly on a text of `n` data rows, and 0 on every other text. -/
def AcceptsGrammar (text : List UInt8) (kind : TextKind) : Prop :=
  (∀ n, 0 < n → (nawamSecurityTextValid text kind = n ↔
    SecurityText IsSbat kind text n)) ∧
  ((¬ ∃ n, SecurityText IsSbat kind text n) →
    nawamSecurityTextValid text kind = 0)

/-- A third column behind a product other than `sbat`. -/
def strayDate (l : List UInt8) : Bool :=
  l.takeWhile (· ≠ comma) ≠ sbatName && 2 ≤ l.count comma

/-- The text is well formed but for the date, which some row carries behind a
product that merely ends in `sbat`. -/
def StrayDated (text : List UInt8) : Prop :=
  (∃ n, SecurityText EndsInSbat .sbat text n) ∧
    ∃ ls, Lines text ls ∧ ∃ l ∈ ls, isDataRow l = true ∧ strayDate l = true

theorem count_comma_of_productChars {l : List UInt8}
    (h : ∀ c ∈ l, isProductChar c = true) : l.count comma = 0 := by
  rw [List.count_eq_zero]
  intro hmem
  exact absurd (h comma hmem) (by decide)

theorem count_comma_of_numeral {base v w : ℕ} {l : List UInt8}
    (h : numeralFrom base v l = some w) : l.count comma = 0 := by
  rw [List.count_eq_zero]
  intro hmem
  have hdig := isDigitOf_of_numeralFrom h comma hmem
  simp [isDigitOf, show digitValue 44 = none by decide] at hdig

theorem count_comma_of_versionColumn {column : List UInt8} {v : ℕ}
    (h : VersionColumn column v) : column.count comma = 0 := by
  rcases h with ⟨-, hnum⟩ | ⟨digits, rfl, -, hnum⟩
  · exact count_comma_of_numeral hnum
  · have hcount := count_comma_of_numeral hnum
    simpa [List.count_cons] using hcount

/-- On a row of the code's grammar, being a row of the documented one means
having no stray date. -/
theorem sbatRow_isSbat_iff {l : List UInt8} (h : SbatRow EndsInSbat l) :
    SbatRow IsSbat l ↔ strayDate l = false := by
  constructor
  · rintro ⟨product, column, tail, v, rfl, -, -, hall, hcol, -, -, htail⟩
    unfold strayDate
    rw [(takeWhile_product hall).1]
    rcases htail with rfl | ⟨rfl, -⟩
    · simp [count_comma_of_productChars hall,
        count_comma_of_versionColumn hcol]
    · simp
  · obtain ⟨product, column, tail, v, rfl, h1, h127, hall, hcol, hv, hmax,
      htail⟩ := h
    intro hno
    refine ⟨product, column, tail, v, rfl, h1, h127, hall, hcol, hv, hmax, ?_⟩
    rcases htail with rfl | ⟨-, date, rfl, hdate⟩
    · exact Or.inl rfl
    · refine Or.inr ⟨?_, date, rfl, hdate⟩
      by_contra hne
      have hne' : product ≠ sbatName := hne
      unfold strayDate at hno
      rw [(takeWhile_product hall).1] at hno
      -- the comma after the product and the one before the date
      simp only [ne_eq, hne', not_false_eq_true, decide_true, Bool.true_and,
        List.count_append, List.count_cons_self, decide_eq_false_iff_not] at hno
      omega

theorem SecurityText.mono {kind : TextKind} {text : List UInt8} {n : ℕ}
    {dated dated' : List UInt8 → Prop}
    (hdated : ∀ p, dated p → dated' p)
    (h : SecurityText dated kind text n) : SecurityText dated' kind text n := by
  obtain ⟨hsize, h1, ls, hls, hrows, hcount⟩ := h
  refine ⟨hsize, h1, ls, hls, fun l hl hdata => ?_, hcount⟩
  have hrow := hrows l hl hdata
  cases kind with
  | thumbprint => exact hrow
  | sbat =>
      obtain ⟨product, column, tail, v, heq, hlo, hhi, hall, hcol, hv, hmax,
        htail⟩ := hrow
      refine ⟨product, column, tail, v, heq, hlo, hhi, hall, hcol, hv, hmax,
        ?_⟩
      rcases htail with h | ⟨hp, hd⟩
      · exact Or.inl h
      · exact Or.inr ⟨hdated product hp, hd⟩

theorem endsInSbat_of_isSbat : ∀ p, IsSbat p → EndsInSbat p := by
  rintro p rfl
  exact List.suffix_refl _

theorem not_acceptsGrammar_of_strayDated {text : List UInt8}
    (h : StrayDated text) : ¬ AcceptsGrammar text .sbat := by
  obtain ⟨⟨n, htext⟩, ls, hls, l, hl, hdata, hstray⟩ := h
  rintro ⟨hagree, -⟩
  have hn : 0 < n := htext.2.1
  have hvalid := (nawamSecurityTextValid_eq_iff hn).mpr htext
  obtain ⟨-, -, ls', hls', hrows', -⟩ := (hagree n hn).mp hvalid
  obtain ⟨-, -, ls'', hls'', hrows'', -⟩ := htext
  rw [← Lines.unique hls hls'] at hrows'
  rw [← Lines.unique hls hls''] at hrows''
  have hno := (sbatRow_isSbat_iff (hrows'' l hl hdata)).mp (hrows' l hl hdata)
  rw [hno] at hstray
  exact Bool.noConfusion hstray

/-- Without a stray date the two grammars have the same texts. -/
theorem securityText_isSbat_iff {kind : TextKind} {text : List UInt8} {n : ℕ}
    (h : ¬ (kind = .sbat ∧ StrayDated text)) :
    SecurityText EndsInSbat kind text n ↔ SecurityText IsSbat kind text n := by
  constructor
  · rintro ⟨hsize, h1, ls, hls, hrows, hcount⟩
    refine ⟨hsize, h1, ls, hls, fun l hl hdata => ?_, hcount⟩
    cases kind with
    | thumbprint => exact hrows l hl hdata
    | sbat =>
        refine (sbatRow_isSbat_iff (hrows l hl hdata)).mpr ?_
        by_contra hstray
        exact h ⟨rfl, ⟨n, hsize, h1, ls, hls, hrows, hcount⟩, ls, hls, l, hl,
          hdata, by simpa using hstray⟩
  · exact SecurityText.mono endsInSbat_of_isSbat

/-- **The validator accepts exactly the documented grammar, but for stray
dates**: it agrees with the grammar on a text if and only if the text is not
an SBAT text with a date behind a product that only ends in `sbat`. -/
theorem acceptsGrammar_iff (text : List UInt8) (kind : TextKind) :
    AcceptsGrammar text kind ↔ ¬ (kind = .sbat ∧ StrayDated text) := by
  constructor
  · rintro hok ⟨rfl, hstray⟩
    exact not_acceptsGrammar_of_strayDated hstray hok
  · intro hno
    refine ⟨fun n hn => ?_, fun hnone => ?_⟩
    · rw [nawamSecurityTextValid_eq_iff hn, securityText_isSbat_iff hno]
    · by_contra hne
      have hn : 0 < nawamSecurityTextValid text kind := Nat.pos_of_ne_zero hne
      have htext := (nawamSecurityTextValid_eq_iff hn).mp rfl
      exact hnone ⟨_, (securityText_isSbat_iff hno).mp htext⟩

/-- `xsbat,1,2025051000` -/
def strayRow : List UInt8 :=
  text "xsbat,1,2025051000"

theorem not_acceptsGrammar_strayRow : ¬ AcceptsGrammar strayRow .sbat := by
  have hvalid : nawamSecurityTextValid strayRow .sbat = 1 := by decide +kernel
  refine not_acceptsGrammar_of_strayDated
    ⟨⟨1, (nawamSecurityTextValid_eq_iff (by decide)).mp hvalid⟩,
      [strayRow], .cons (.last (by decide) (by decide +kernel)) .nil, strayRow,
      by simp, by decide, by decide⟩

end Nawam
