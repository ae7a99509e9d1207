import Mathlib.Algebra.Group.Int.Defs
import Mathlib.Tactic.Common

/-!
# Arithmetic of `int`

A computation on `int` faults where a value does not fit, which C gives no meaning to, and where
it divides by zero. It is written over what is done with each value, so that it can be run with
the check and without it: unless a value does not fit, the two runs are the same.
-/

namespace Nawam

inductive IntFault where
  | overflow
  | divideByZero
  deriving DecidableEq

/-- A computation on `int` -/
abbrev CInt (α : Type) : Type := Except IntFault α

/-- A value that has to be an `int` -/
def checked (x : ℤ) : CInt ℤ :=
  if -2 ^ 31 ≤ x ∧ x < 2 ^ 31 then .ok x else .error .overflow

/-- `a / b` -/
def divInt (int : ℤ → CInt ℤ) (a b : ℤ) : CInt ℤ :=
  if b = 0 then .error .divideByZero else int (a.tdiv b)

namespace CInt

variable {α β : Type}

@[simp] theorem ok_bind (a : α) (f : α → CInt β) : (Except.ok a : CInt α) >>= f = f a := rfl

@[simp] theorem error_bind (e : IntFault) (f : α → CInt β) :
    (Except.error e : CInt α) >>= f = .error e := rfl

theorem ne_error {x : CInt α} {e : IntFault} (h : x.isOk = true) : x ≠ .error e := by
  rintro rfl
  exact nomatch h

/-- The first run is the second one unless it stops at a value that does not fit. -/
def Agrees (x y : CInt α) : Prop := x = .error .overflow ∨ x = y

namespace Agrees

variable {x y : CInt α}

theorem refl (x : CInt α) : Agrees x x := .inr rfl

theorem checked (a : ℤ) : Agrees (checked a) (.ok a) := by
  rw [Nawam.checked]
  split
  · exact .inr rfl
  · exact .inl rfl

theorem divInt (a b : ℤ) : Agrees (divInt Nawam.checked a b) (divInt .ok a b) := by
  rw [Nawam.divInt, Nawam.divInt]
  split
  · exact .refl _
  · exact .checked _

theorem bind {f g : α → CInt β} (h : Agrees x y) (hfg : ∀ a, Agrees (f a) (g a)) :
    Agrees (x >>= f) (y >>= g) := by
  rcases h with rfl | rfl
  · exact .inl rfl
  · cases x with
    | error e => exact .refl _
    | ok a => exact hfg a

theorem ite {c : Prop} [Decidable c] {x' y' : CInt α} (h : Agrees x y) (h' : Agrees x' y') :
    Agrees (if c then x else x') (if c then y else y') := by
  split
  · exact h
  · exact h'

theorem mapM {f g : α → CInt β} (h : ∀ a, Agrees (f a) (g a)) :
    ∀ l : List α, Agrees (l.mapM f) (l.mapM g)
  | [] => .refl _
  | a :: l => by
      rw [List.mapM_cons, List.mapM_cons]
      exact (h a).bind fun _ => (mapM h l).bind fun _ => .refl _

theorem eq_of_ne (h : Agrees x y) (hne : x ≠ .error .overflow) : x = y := h.resolve_left hne

end Agrees

/-- The run does not stop at a value that does not fit, and what it gives is so. -/
def Fits (x : CInt α) (P : α → Prop) : Prop :=
  match x with
  | .ok a => P a
  | .error e => e ≠ .overflow

namespace Fits

variable {x y : CInt α} {P : α → Prop} {Q : β → Prop}

theorem ok {a : α} (h : P a) : Fits (.ok a) P := h

theorem checked {a : ℤ} (hlow : -2 ^ 31 ≤ a) (hhigh : a < 2 ^ 31) :
    Fits (checked a) (· = a) := by
  rw [Nawam.checked, if_pos ⟨hlow, hhigh⟩]
  exact rfl

theorem divInt {a b : ℤ} (h : b ≠ 0 → -2 ^ 31 ≤ a.tdiv b ∧ a.tdiv b < 2 ^ 31) :
    Fits (divInt Nawam.checked a b) (fun q => b ≠ 0 ∧ q = a.tdiv b) := by
  rw [Nawam.divInt]
  split
  · exact fun h => nomatch h
  · next hb =>
      rw [Nawam.checked, if_pos (h hb)]
      exact ⟨hb, rfl⟩

theorem bind {f : α → CInt β} (h : Fits x P) (hf : ∀ a, P a → Fits (f a) Q) :
    Fits (x >>= f) Q := by
  cases x with
  | error e => exact h
  | ok a => exact hf a h

/-- A value that fits, and what is done with it -/
theorem bindChecked {a : ℤ} {f : ℤ → CInt β} (hlow : -2 ^ 31 ≤ a) (hhigh : a < 2 ^ 31)
    (hf : Fits (f a) Q) : Fits (Nawam.checked a >>= f) Q := by
  rw [Nawam.checked, if_pos ⟨hlow, hhigh⟩]
  exact hf

theorem mono {P' : α → Prop} (h : Fits x P) (hP : ∀ a, P a → P' a) : Fits x P' := by
  cases x with
  | error e => exact h
  | ok a => exact hP a h

theorem ite {c : Prop} [Decidable c] (h : c → Fits x P) (h' : ¬c → Fits y P) :
    Fits (if c then x else y) P := by
  split
  · next hc => exact h hc
  · next hc => exact h' hc

theorem mapM {f : α → CInt β} {l : List α} (h : ∀ a ∈ l, Fits (f a) Q) :
    Fits (l.mapM f) (∀ b ∈ ·, Q b) := by
  induction l with
  | nil => exact fun b hb => nomatch hb
  | cons a l ih =>
      rw [List.forall_mem_cons] at h
      rw [List.mapM_cons]
      refine h.1.bind fun b hb => (ih h.2).bind fun bs hbs => ?_
      exact List.forall_mem_cons.mpr ⟨hb, hbs⟩

theorem ne_overflow (h : Fits x P) : x ≠ .error .overflow := by
  rintro rfl
  exact h rfl

end Fits

end CInt

end Nawam
