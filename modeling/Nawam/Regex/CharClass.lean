import Mathlib.Data.Nat.Bitwise
import Mathlib.Logic.Function.Basic
import Nawam.Base.Achieves

/-!
# Character classes of a pattern

`[...]` is compiled into a bitmap of 32 bytes. The text between the brackets
stays where it is in the pattern, and the compiler reads it once more: a
pointer into the pattern is the list of the bytes from it on. `ClassText` is
the grammar of these texts, and the bitmap holds the bytes that one of the
ranges comes by, compared as the signed `char`s that they are.
-/

namespace Nawam.Regex

/-! ## The bitmap -/

abbrev CharClass : Type := Fin ((255 + 8 - 1) / 8) → UInt8

def charValue (c : UInt8) : ℤ := if c.toNat < 128 then c.toNat else c.toNat - 256

/-- `(unsigned char)ch` -/
def asUchar (ch : ℤ) : UInt8 := .ofNat (ch % 256).toNat

theorem charClass_index_lt (uch : UInt8) : uch.toNat / 8 < (255 + 8 - 1) / 8 := by
  have := uch.toNat_lt
  omega

/-- The byte of the bitmap in which a character has its bit. -/
def charClassIndex (uch : UInt8) : Fin ((255 + 8 - 1) / 8) :=
  ⟨uch.toNat / 8, charClass_index_lt uch⟩

def cregexCharClassContains (klass : CharClass) (ch : ℤ) : Bool :=
  klass (charClassIndex (asUchar ch)) &&& (1 <<< (asUchar ch % 8)) != 0

def cregexCharClassAdd (klass : CharClass) (ch : ℤ) : CharClass :=
  Function.update klass (charClassIndex (asUchar ch))
    (klass (charClassIndex (asUchar ch)) ||| (1 <<< (asUchar ch % 8)))

theorem asUchar_charValue (c : UInt8) : asUchar (charValue c) = c := by
  have hc := c.toNat_lt
  apply UInt8.toNat_inj.mp
  rw [asUchar, UInt8.toNat_ofNat', charValue]
  split <;> omega

theorem charValue_bounds (c : UInt8) : -128 ≤ charValue c ∧ charValue c < 128 := by
  have hc := c.toNat_lt
  rw [charValue]
  split <;> omega

/-- An `int` in the range of a `char` is the value of one. -/
theorem charValue_asUchar {c : ℤ} (hlow : -128 ≤ c) (hhigh : c < 128) :
    charValue (asUchar c) = c := by
  have hnat : (asUchar c).toNat = (c % 256).toNat := by
    rw [asUchar, UInt8.toNat_ofNat']
    omega
  rw [charValue, hnat]
  split <;> omega

theorem and_shift_ne_zero (x u : UInt8) :
    (x &&& (1 <<< (u % 8)) != 0) = x.toNat.testBit (u.toNat % 8) := by
  have hlt : u.toNat % 8 < 8 := Nat.mod_lt _ (by decide)
  have hpow : (2 : ℕ) ^ (u.toNat % 8) < 256 :=
    Nat.pow_lt_pow_right (a := 2) (n := 8) (by decide) hlt
  have hshift : ((1 : UInt8) <<< (u % 8)).toNat = 2 ^ (u.toNat % 8) := by
    have h8 : (8 : UInt8).toNat = 8 := rfl
    have h1 : (1 : UInt8).toNat = 1 := rfl
    rw [UInt8.toNat_shiftLeft, UInt8.toNat_mod, h8, h1, Nat.mod_mod, Nat.shiftLeft_eq,
      Nat.one_mul]
    exact Nat.mod_eq_of_lt hpow
  have hand : (x &&& (1 <<< (u % 8))).toNat =
      (x.toNat.testBit (u.toNat % 8)).toNat * 2 ^ (u.toNat % 8) := by
    rw [UInt8.toNat_and, hshift, Nat.and_two_pow]
  have hpos : 0 < 2 ^ (u.toNat % 8) := Nat.two_pow_pos _
  cases hbit : x.toNat.testBit (u.toNat % 8) with
  | false =>
      rw [hbit, Bool.toNat_false, Nat.zero_mul] at hand
      rw [UInt8.toNat_inj.mp (hand.trans UInt8.toNat_zero.symm)]
      rfl
  | true =>
      rw [hbit, Bool.toNat_true, Nat.one_mul] at hand
      rw [bne_iff_ne]
      intro hzero
      rw [hzero, UInt8.toNat_zero] at hand
      omega

theorem contains_eq_testBit (klass : CharClass) (ch : ℤ) :
    cregexCharClassContains klass ch =
      (klass (charClassIndex (asUchar ch))).toNat.testBit ((asUchar ch).toNat % 8) :=
  and_shift_ne_zero _ _

/-- Adding a character sets its bit and no other. -/
theorem contains_add (klass : CharClass) (a b : ℤ) :
    cregexCharClassContains (cregexCharClassAdd klass a) b =
      (decide (asUchar a = asUchar b) || cregexCharClassContains klass b) := by
  have hbit : ∀ x u : UInt8, ∀ j, (x ||| (1 <<< (u % 8))).toNat.testBit j =
      (x.toNat.testBit j || decide (u.toNat % 8 = j)) := by
    intro x u j
    have h8 : (8 : UInt8).toNat = 8 := rfl
    have h1 : (1 : UInt8).toNat = 1 := rfl
    have hlt : u.toNat % 8 < 8 := Nat.mod_lt _ (by decide)
    have hpow : (2 : ℕ) ^ (u.toNat % 8) < 256 :=
      Nat.pow_lt_pow_right (a := 2) (n := 8) (by decide) hlt
    rw [UInt8.toNat_or, UInt8.toNat_shiftLeft, UInt8.toNat_mod, h8, h1, Nat.mod_mod,
      Nat.shiftLeft_eq, Nat.one_mul, Nat.mod_eq_of_lt (show 2 ^ (u.toNat % 8) < 2 ^ 8 from hpow),
      Nat.testBit_or, Nat.testBit_two_pow]
  rw [contains_eq_testBit, contains_eq_testBit, cregexCharClassAdd]
  by_cases hidx : charClassIndex (asUchar b) = charClassIndex (asUchar a)
  · rw [hidx, Function.update_self, hbit, Bool.or_comm]
    congr 1
    have hdiv : (asUchar b).toNat / 8 = (asUchar a).toNat / 8 := congrArg Fin.val hidx
    rw [decide_eq_decide, ← UInt8.toNat_inj]
    omega
  · rw [Function.update_of_ne hidx]
    have hne : asUchar a ≠ asUchar b := by
      intro heq
      exact hidx (by rw [heq])
    rw [decide_eq_false hne, Bool.false_or]

/-- `for (; ch <= hi; ++ch) cregex_char_class_add(klass, ch)`, with the number of its
turns. -/
def addTurns : ℕ → ℤ → CharClass → CharClass
  | 0, _, klass => klass
  | n + 1, ch, klass => addTurns n (ch + 1) (cregexCharClassAdd klass ch)

/-- The characters from `ch` to `hi`, as `char`s -/
def addRange (ch hi : ℤ) (klass : CharClass) : CharClass :=
  addTurns (hi + 1 - ch).toNat ch klass

theorem contains_addTurns (b : ℤ) : ∀ (n : ℕ) (ch : ℤ) (klass : CharClass),
    cregexCharClassContains (addTurns n ch klass) b = true ↔
      (∃ i < n, asUchar (ch + (i : ℤ)) = asUchar b) ∨ cregexCharClassContains klass b = true
  | 0, ch, klass => by
      rw [addTurns]
      refine ⟨Or.inr, fun h => h.resolve_left ?_⟩
      rintro ⟨i, hi, -⟩
      exact Nat.not_lt_zero i hi
  | n + 1, ch, klass => by
      rw [addTurns, contains_addTurns b n, contains_add, Bool.or_eq_true, decide_eq_true_eq,
        ← or_assoc]
      refine or_congr_left ⟨?_, ?_⟩
      · rintro (⟨i, hi, heq⟩ | heq)
        · refine ⟨i + 1, Nat.succ_lt_succ hi, ?_⟩
          rw [← heq]
          congr 1
          omega
        · exact ⟨0, Nat.succ_pos n, by rw [← heq, Int.natCast_zero, Int.add_zero]⟩
      · rintro ⟨i, hi, heq⟩
        cases i with
        | zero => exact .inr (by rw [← heq, Int.natCast_zero, Int.add_zero])
        | succ i =>
            refine .inl ⟨i, Nat.lt_of_succ_lt_succ hi, ?_⟩
            rw [← heq]
            congr 1
            omega

/-- A range adds the characters between its ends. -/
theorem contains_addRange (lo hi b : UInt8) (klass : CharClass) :
    cregexCharClassContains (addRange (charValue lo) (charValue hi) klass) (charValue b) = true ↔
      (charValue lo ≤ charValue b ∧ charValue b ≤ charValue hi) ∨
        cregexCharClassContains klass (charValue b) = true := by
  have hlo := charValue_bounds lo
  have hhi := charValue_bounds hi
  have hb := charValue_bounds b
  rw [addRange, contains_addTurns]
  refine or_congr_left ⟨?_, ?_⟩
  · rintro ⟨i, hi', heq⟩
    have hvalue : charValue lo + (i : ℤ) = charValue b := by
      rw [← charValue_asUchar (c := charValue lo + (i : ℤ)) (by omega) (by omega), heq,
        asUchar_charValue]
    omega
  · rintro ⟨hge, hle⟩
    refine ⟨(charValue b - charValue lo).toNat, by omega, ?_⟩
    congr 1
    omega

theorem contains_empty (b : ℤ) : cregexCharClassContains (fun _ => 0) b = false := by
  rw [contains_eq_testBit, UInt8.toNat_zero, Nat.zero_testBit]

/-! ## The text between the brackets -/

/-- `c`, or the range `c-h`, and what stands behind it. -/
inductive ClassItem : UInt8 → List UInt8 → UInt8 × UInt8 → List UInt8 → Prop where
  | range {c h : UInt8} {t : List UInt8} : h ≠ Ascii.rbracket →
      ClassItem c (Ascii.minus :: h :: t) (c, h) t
  | last {c : UInt8} {t : List UInt8} :
      ClassItem c (Ascii.minus :: Ascii.rbracket :: t) (c, c)
        (Ascii.minus :: Ascii.rbracket :: t)
  | single {c d : UInt8} {t : List UInt8} : d ≠ Ascii.minus →
      ClassItem c (d :: t) (c, c) (d :: t)

/-- The ranges of a class, up to the bracket that ends it. One that stands in
front of all of them does not; a backslash takes the next byte as it is. -/
inductive ClassText : Bool → List UInt8 → List (UInt8 × UInt8) → List UInt8 → Prop where
  | close {t : List UInt8} : ClassText false (Ascii.rbracket :: t) [] t
  | plain {first : Bool} {c : UInt8} {t t' rest : List UInt8} {r : UInt8 × UInt8}
      {rs : List (UInt8 × UInt8)} : (c = Ascii.rbracket → first = true) → c ≠ Ascii.backslash →
      ClassItem c t r t' → ClassText false t' rs rest → ClassText first (c :: t) (r :: rs) rest
  | escaped {first : Bool} {c : UInt8} {t t' rest : List UInt8} {r : UInt8 × UInt8}
      {rs : List (UInt8 × UInt8)} : ClassItem c t r t' → ClassText false t' rs rest →
      ClassText first (Ascii.backslash :: c :: t) (r :: rs) rest

def InRange (b : UInt8) (r : UInt8 × UInt8) : Prop :=
  charValue r.1 ≤ charValue b ∧ charValue b ≤ charValue r.2

/-- A class text has the byte in one of its ranges. -/
def InClass (text : List UInt8) (b : UInt8) : Prop :=
  ∃ rs rest, ClassText true text rs rest ∧ ∃ r ∈ rs, InRange b r

/-! ## Compiling it -/

/-- The character, or the range that it begins, is added to the bitmap. -/
def compileClassItem (ch : UInt8) (sp : List UInt8) (klass : CharClass) :
    C (CharClass × List UInt8) :=
  match sp with
  | [] => .error .outOfBounds
  | d :: t =>
      if d = Ascii.minus then
        match t with
        | [] => .error .outOfBounds
        | h :: t' =>
            if h ≠ Ascii.rbracket then
              .ok (addRange (charValue ch) (charValue h) klass, t')
            else .ok (cregexCharClassAdd klass (charValue ch), sp)
      else .ok (cregexCharClassAdd klass (charValue ch), sp)

/-- The loop of `compile_char_class`; `first` is `sp == node->from`. Each turn
takes a byte, so the turns are no more than there are bytes. -/
def compileCharClassFrom : ℕ → Bool → List UInt8 → CharClass → C CharClass
  | 0, _, _, _ => .error .outOfFuel
  | _ + 1, _, [], _ => .error .outOfBounds
  | turns + 1, first, ch :: sp, klass =>
      if ch = Ascii.rbracket ∧ first = false then .ok klass
      else if ch = Ascii.backslash then
        match sp with
        | [] => .error .outOfBounds
        | ch :: sp => do
            let (klass, sp) ← compileClassItem ch sp klass
            compileCharClassFrom turns false sp klass
      else do
        let (klass, sp) ← compileClassItem ch sp klass
        compileCharClassFrom turns false sp klass

/-- `compile_char_class`, with the text from `node->from` on -/
def compileCharClass (text : List UInt8) : C CharClass :=
  compileCharClassFrom (text.length + 1) true text fun _ => 0

theorem ClassItem.length_le {c : UInt8} {t t' : List UInt8} {r : UInt8 × UInt8}
    (h : ClassItem c t r t') : t'.length ≤ t.length := by
  cases h with
  | range _ => simp only [List.length_cons]; omega
  | last => exact Nat.le_refl _
  | single _ => exact Nat.le_refl _

/-- An item of the text adds what is in its range. -/
theorem compileClassItem_eq {c : UInt8} {t t' : List UInt8} {r : UInt8 × UInt8}
    (h : ClassItem c t r t') (klass : CharClass) :
    Achieves (compileClassItem c t klass) fun res => res.2 = t' ∧
      ∀ b, cregexCharClassContains res.1 (charValue b) = true ↔
        InRange b r ∨ cregexCharClassContains klass (charValue b) = true := by
  have hsingle : ∀ b, cregexCharClassContains (cregexCharClassAdd klass (charValue c))
      (charValue b) = true ↔ InRange b (c, c) ∨
        cregexCharClassContains klass (charValue b) = true := by
    intro b
    rw [contains_add, Bool.or_eq_true, decide_eq_true_eq, asUchar_charValue, asUchar_charValue]
    refine or_congr_left ⟨?_, ?_⟩
    · rintro rfl
      exact ⟨le_rfl, le_rfl⟩
    · rintro ⟨hle, hge⟩
      rw [← asUchar_charValue c, ← asUchar_charValue b, le_antisymm hle hge]
  cases h with
  | @range h t hne =>
      simp only [compileClassItem, if_pos hne, if_true]
      exact .ok ⟨rfl, fun b => contains_addRange c h b klass⟩
  | last => exact .ok ⟨rfl, hsingle⟩
  | single hne =>
      simp only [compileClassItem, if_neg hne]
      exact .ok ⟨rfl, hsingle⟩

theorem compileCharClassFrom_eq {first : Bool} {text rest : List UInt8}
    {rs : List (UInt8 × UInt8)} (h : ClassText first text rs rest) :
    ∀ (turns : ℕ) (klass : CharClass), text.length < turns →
      Achieves (compileCharClassFrom turns first text klass) fun klass' =>
        ∀ b, cregexCharClassContains klass' (charValue b) = true ↔
          (∃ r ∈ rs, InRange b r) ∨ cregexCharClassContains klass (charValue b) = true := by
  induction h with
  | close =>
      intro turns klass hturns
      cases turns with
      | zero => exact absurd hturns (Nat.not_lt_zero _)
      | succ turns =>
          simp only [compileCharClassFrom, and_self, if_true]
          exact .ok fun b => ⟨Or.inr, fun h => h.resolve_left fun ⟨_, hr, _⟩ =>
            List.not_mem_nil hr⟩
  | @plain first c t t' rest r rs hclose hplain hitem htext ih =>
      intro turns klass hturns
      cases turns with
      | zero => exact absurd hturns (Nat.not_lt_zero _)
      | succ turns =>
          have hnot : ¬(c = Ascii.rbracket ∧ first = false) := by
            rintro ⟨hc, hfirst⟩
            rw [hclose hc] at hfirst
            cases hfirst
          simp only [compileCharClassFrom, if_neg hnot, if_neg hplain]
          refine (compileClassItem_eq hitem klass).bind ?_
          rintro ⟨klass', sp⟩ ⟨rfl, hitem'⟩
          have hle := hitem.length_le
          rw [List.length_cons] at hturns
          refine (ih turns klass' (by omega)).mono fun klass'' h'' b => ?_
          rw [h'' b, hitem' b, List.exists_mem_cons_iff, ← or_assoc, or_comm (b := InRange b r)]
  | @escaped first c t t' rest r rs hitem htext ih =>
      intro turns klass hturns
      cases turns with
      | zero => exact absurd hturns (Nat.not_lt_zero _)
      | succ turns =>
          have hnot : ¬(Ascii.backslash = Ascii.rbracket ∧ first = false) :=
            fun h => absurd h.1 (by decide)
          simp only [compileCharClassFrom, if_neg hnot, if_true]
          refine (compileClassItem_eq hitem klass).bind ?_
          rintro ⟨klass', sp⟩ ⟨rfl, hitem'⟩
          have hle := hitem.length_le
          rw [List.length_cons, List.length_cons] at hturns
          refine (ih turns klass' (by omega)).mono fun klass'' h'' b => ?_
          rw [h'' b, hitem' b, List.exists_mem_cons_iff, ← or_assoc, or_comm (b := InRange b r)]

/-- The bitmap of a text that has its bracket holds what is in the class. -/
theorem compileCharClass_eq {text rest : List UInt8} {rs : List (UInt8 × UInt8)}
    (h : ClassText true text rs rest) :
    Achieves (compileCharClass text) fun klass =>
      ∀ b, cregexCharClassContains klass (charValue b) = true ↔ InClass text b := by
  have hranges : ∀ {rs rest}, ClassText true text rs rest →
      Achieves (compileCharClass text) fun klass =>
        ∀ b, cregexCharClassContains klass (charValue b) = true ↔ ∃ r ∈ rs, InRange b r := by
    intro rs rest h
    refine (compileCharClassFrom_eq h _ _ (Nat.lt_succ_self _)).mono fun klass hk b => ?_
    rw [hk b, contains_empty]
    exact or_iff_left Bool.false_ne_true
  obtain ⟨klass, hrun, hklass⟩ := hranges h
  refine ⟨klass, hrun, fun b => ⟨fun hb => ⟨rs, rest, h, (hklass b).mp hb⟩, ?_⟩⟩
  rintro ⟨rs', rest', h', hb⟩
  obtain ⟨klass', hrun', hklass'⟩ := hranges h'
  rw [hrun] at hrun'
  cases hrun'
  exact (hklass' b).mpr hb

end Nawam.Regex
