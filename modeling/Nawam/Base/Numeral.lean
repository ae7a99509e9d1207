import Nawam.Base.Bytes

/-!
# Numerals and overflow-checked accumulation

The value of a digit string, and the loop every decimal or hexadecimal reader
of untrusted text runs: multiply, add, and refuse as soon as the next value
would pass a limit. `checkedNumeral_eq_some_iff` says that the incremental
test refuses exactly the strings whose final value is above the limit, since
values only grow along the string.
-/

namespace Nawam

/-- The value of a digit string read after a prefix of value `v`; `none` when
a byte is not a digit of the base. -/
def numeralFrom (base : ℕ) : ℕ → List UInt8 → Option ℕ
  | v, [] => some v
  | v, c :: cs =>
      match digitValue c with
      | some d => if d < base then numeralFrom base (v * base + d) cs else none
      | none => none

/-- The bytes are a non-empty numeral of value `v`. -/
def Numeral (base : ℕ) (cs : List UInt8) (v : ℕ) : Prop :=
  cs ≠ [] ∧ numeralFrom base 0 cs = some v

instance (base : ℕ) (cs : List UInt8) (v : ℕ) : Decidable (Numeral base cs v) :=
  inferInstanceAs (Decidable (_ ∧ _))

def isDigitOf (base : ℕ) (c : UInt8) : Bool :=
  match digitValue c with
  | some d => decide (d < base)
  | none => false

/-- Multiply, add, refuse at the first step that would pass the limit. -/
def checkedNumeral (limit base : ℕ) : ℕ → List UInt8 → Option ℕ
  | v, [] => some v
  | v, c :: cs =>
      match digitValue c with
      | some d =>
          if base ≤ d ∨ (limit - d) / base < v then none
          else checkedNumeral limit base (v * base + d) cs
      | none => none

theorem numeralFrom_cons_some {base v w : ℕ} {c : UInt8} {cs : List UInt8} :
    numeralFrom base v (c :: cs) = some w ↔
      ∃ d, digitValue c = some d ∧ d < base ∧
        numeralFrom base (v * base + d) cs = some w := by
  simp only [numeralFrom]
  cases hd : digitValue c with
  | none => simp
  | some d =>
      by_cases h : d < base
      · simp [h]
      · simp [h]

theorem le_of_numeralFrom {base : ℕ} (hb : 0 < base) :
    ∀ {cs : List UInt8} {v w : ℕ}, numeralFrom base v cs = some w → v ≤ w
  | [], v, w, h => by
      simp only [numeralFrom, Option.some.injEq] at h
      exact h.le
  | c :: cs, v, w, h => by
      obtain ⟨d, -, -, hrest⟩ := numeralFrom_cons_some.mp h
      have hle := le_of_numeralFrom hb hrest
      have hmul : v ≤ v * base := Nat.le_mul_of_pos_right v hb
      omega

/-- The step test is exact: `v * base + d` passes the limit iff it fails. -/
theorem checked_step_iff {limit base v d : ℕ} (hb : 0 < base)
    (hd : d ≤ limit) : v ≤ (limit - d) / base ↔ v * base + d ≤ limit := by
  rw [Nat.le_div_iff_mul_le hb]
  omega

theorem checkedNumeral_eq_some_iff {limit base : ℕ} (hb : 0 < base)
    (hl : base ≤ limit + 1) :
    ∀ {cs : List UInt8} {v w : ℕ}, v ≤ limit →
      (checkedNumeral limit base v cs = some w ↔
        numeralFrom base v cs = some w ∧ w ≤ limit)
  | [], v, w, hv => by
      simp only [checkedNumeral, numeralFrom, Option.some.injEq]
      constructor
      · rintro rfl
        exact ⟨rfl, hv⟩
      · exact And.left
  | c :: cs, v, w, hv => by
      rw [numeralFrom_cons_some]
      simp only [checkedNumeral]
      cases hd : digitValue c with
      | none => simp
      | some d =>
          simp only [Option.some.injEq, exists_eq_left']
          by_cases hdb : d < base
          · have hstep : v ≤ (limit - d) / base ↔ v * base + d ≤ limit :=
              checked_step_iff hb (by omega)
            by_cases hle : v * base + d ≤ limit
            · have hno : ¬ (base ≤ d ∨ (limit - d) / base < v) := by
                have := hstep.mpr hle
                omega
              rw [if_neg hno, checkedNumeral_eq_some_iff hb hl hle]
              simp [hdb]
            · have hyes : base ≤ d ∨ (limit - d) / base < v := by
                have : ¬ v ≤ (limit - d) / base := fun h => hle (hstep.mp h)
                omega
              rw [if_pos hyes]
              constructor
              · intro h
                simp at h
              · rintro ⟨⟨-, hrest⟩, hw⟩
                have := le_of_numeralFrom hb hrest
                omega
          · have hyes : base ≤ d ∨ (limit - d) / base < v := by omega
            simp [if_pos hyes, hdb]

/-- A string with a value consists of digits of the base. -/
theorem isDigitOf_of_numeralFrom {base : ℕ} :
    ∀ {cs : List UInt8} {v w : ℕ}, numeralFrom base v cs = some w →
      ∀ c ∈ cs, isDigitOf base c = true
  | c :: cs, v, w, h, x, hx => by
      obtain ⟨d, hd, hlt, hrest⟩ := numeralFrom_cons_some.mp h
      rcases List.mem_cons.mp hx with rfl | hx'
      · simp [isDigitOf, hd, hlt]
      · exact isDigitOf_of_numeralFrom hrest x hx'

theorem exists_numeralFrom {base : ℕ} :
    ∀ {cs : List UInt8} (v : ℕ), (∀ c ∈ cs, isDigitOf base c = true) →
      ∃ w, numeralFrom base v cs = some w
  | [], v, _ => ⟨v, rfl⟩
  | c :: cs, v, h => by
      have hc := h c List.mem_cons_self
      unfold isDigitOf at hc
      cases hd : digitValue c with
      | none => simp [hd] at hc
      | some d =>
          simp only [hd, decide_eq_true_eq] at hc
          obtain ⟨w, hw⟩ := exists_numeralFrom (v * base + d)
            (fun x hx => h x (List.mem_cons_of_mem _ hx))
          exact ⟨w, numeralFrom_cons_some.mpr ⟨d, hd, hc, hw⟩⟩

end Nawam
