import Nawam.Base.Ensures

/-!
# Total correctness

`Achieves x P`: the computation `x` comes to an end, without a fault, and its
result has `P`. So no access of it is outside of its buffer, and none of its
loops runs past its turns. The rules follow the `do` notation.
-/

namespace Nawam

/-- `x` returns something, and that has `P`. -/
def Achieves {α : Type} (x : C α) (P : α → Prop) : Prop := ∃ a, x = .ok a ∧ P a

namespace Achieves

variable {α β : Type} {x : C α} {P Q : α → Prop} {R : β → Prop}

theorem ok {a : α} (h : P a) : Achieves (.ok a) P := ⟨a, rfl, h⟩

theorem ok_iff {a : α} : Achieves (.ok a) P ↔ P a := by
  constructor
  · rintro ⟨_, ⟨⟩, h⟩
    exact h
  · exact ok

theorem pure {a : α} (h : P a) : Achieves (Pure.pure a) P := ok h

theorem mono (h : Achieves x P) (hPQ : ∀ a, P a → Q a) : Achieves x Q := by
  obtain ⟨a, ha, hP⟩ := h
  exact ⟨a, ha, hPQ a hP⟩

/-- What comes first gives what the rest needs. -/
theorem bind {f : α → C β} (h : Achieves x P) (hf : ∀ a, P a → Achieves (f a) R) :
    Achieves (x >>= f) R := by
  obtain ⟨a, ha, hP⟩ := h
  rw [ha]
  exact hf a hP

theorem ite {c : Prop} [Decidable c] {y : C α} (ht : c → Achieves x P)
    (hf : ¬c → Achieves y P) : Achieves (if c then x else y) P := by
  split
  case isTrue h => exact ht h
  case isFalse h => exact hf h

theorem load {mem : List UInt8} {i : ℕ} (h : i < mem.length) :
    Achieves (load mem i) fun c => mem[i]? = some c :=
  ⟨mem[i], load_of_lt h, List.getElem?_eq_getElem h⟩

end Achieves

/-- `x` comes to an end with `P`, or an assertion ends the program. No access is outside of
a block either way. -/
def Contained {α : Type} (x : C α) (P : α → Prop) : Prop :=
  x = .error .assertion ∨ Achieves x P

namespace Contained

variable {α β : Type} {x : C α} {P Q : α → Prop} {R : β → Prop}

theorem ok {a : α} (h : P a) : Contained (.ok a) P := Or.inr (.ok h)

theorem assertion : Contained (.error .assertion : C α) P := Or.inl rfl

theorem not_outOfBounds : ¬ Contained (.error .outOfBounds : C α) P := by
  rintro (h | ⟨a, h, -⟩)
  · cases h
  · cases h

theorem mono (h : Contained x P) (hPQ : ∀ a, P a → Q a) : Contained x Q :=
  h.imp_right fun h => h.mono hPQ

/-- An assertion that ends the first part ends the program. -/
theorem bind {f : α → C β} (h : Contained x P) (hf : ∀ a, P a → Contained (f a) R) :
    Contained (x >>= f) R := by
  rcases h with h | ⟨a, ha, hP⟩
  · rw [h, C.error_bind]
    exact assertion
  · rw [ha, C.ok_bind]
    exact hf a hP

end Contained

end Nawam
