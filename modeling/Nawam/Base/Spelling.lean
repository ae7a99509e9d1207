import Mathlib.Data.List.Basic

/-!
# Codes

A code spells each value as a word, and a text is one word after the other. What is valid
may depend on what comes next: a value is only read off the front of a text if it may
stand before the rest (`Before`). A text of one code is turned into one of another by its
values (`Spells.eq_flatMap`, `Spells.of_valid`).
-/

namespace Nawam

variable {α β : Type}

/-- A code: the word of each value, which values have one, and what may come behind. -/
structure Code (α β : Type) where
  word : β → List α
  Valid : β → Prop
  Before : β → List α → Prop

namespace Code

/-- `xs` begins with the word of `b`, which may stand before what follows. -/
def Begins (code : Code α β) (xs : List α) (b : β) (rest : List α) : Prop :=
  xs = code.word b ++ rest ∧ code.Valid b ∧ code.Before b rest

/-- The text `xs` has the values `bs`. -/
inductive Spells (code : Code α β) : List α → List β → Prop
  | nil : Spells code [] []
  | cons {xs rest : List α} {b : β} {bs : List β} (hbegins : code.Begins xs b rest)
      (hrest : Spells code rest bs) : Spells code xs (b :: bs)

namespace Spells

variable {code : Code α β} {xs : List α} {bs : List β}

theorem nil_iff : code.Spells xs [] ↔ xs = [] := by
  constructor
  · intro h
    cases h
    rfl
  · rintro rfl
    exact nil

theorem cons_iff {b : β} :
    code.Spells xs (b :: bs) ↔ ∃ rest, code.Begins xs b rest ∧ code.Spells rest bs := by
  constructor
  · intro h
    cases h with
    | cons hbegins hrest => exact ⟨_, hbegins, hrest⟩
  · rintro ⟨rest, hbegins, hrest⟩
    exact cons hbegins hrest

theorem eq_flatMap (h : code.Spells xs bs) : xs = bs.flatMap code.word := by
  induction h with
  | nil => rfl
  | cons hbegins hrest ih => rw [hbegins.1, List.flatMap_cons, ← ih]

theorem valid (h : code.Spells xs bs) : ∀ b ∈ bs, code.Valid b := by
  induction h with
  | nil =>
      intro b hb
      exact absurd hb List.not_mem_nil
  | cons hbegins hrest ih =>
      intro b hb
      rcases List.mem_cons.mp hb with rfl | hb
      · exact hbegins.2.1
      · exact ih b hb

/-- Where a word may stand before anything, its values can come in any order. -/
theorem of_valid (hbefore : ∀ b rest, code.Before b rest) (hvalid : ∀ b ∈ bs, code.Valid b) :
    code.Spells (bs.flatMap code.word) bs := by
  induction bs with
  | nil => exact nil
  | cons b bs ih =>
      have hb := hvalid b List.mem_cons_self
      have hrest := ih fun c hc => hvalid c (List.mem_cons_of_mem b hc)
      exact cons ⟨List.flatMap_cons, hb, hbefore b _⟩ hrest

end Spells

end Code

end Nawam
