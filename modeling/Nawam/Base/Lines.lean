import Mathlib.Data.List.TakeWhile
import Nawam.Base.Bytes

/-!
# Lines of a text

A text is a sequence of lines of printable characters and tabs, each ended by
LF or CRLF, the last one possibly by nothing. The relation `Lines` says so
without a splitting function, so it can judge one; it is functional
(`Lines.unique`), because a line is the longest printable prefix of what is
left (`FirstLine.eq_takeWhile`).
-/

namespace Nawam

open Ascii

/-- Printable ASCII or tab. -/
def isTextChar (c : UInt8) : Bool := c = tab || (32 ≤ c && c ≤ 126)

/-- `FirstLine s l r`: the first line of `s` is `l`, and `r` is what follows
its line end. -/
inductive FirstLine : List UInt8 → List UInt8 → List UInt8 → Prop where
  | last {l : List UInt8} : l ≠ [] → (∀ c ∈ l, isTextChar c = true) →
      FirstLine l l []
  | lf {l r : List UInt8} : (∀ c ∈ l, isTextChar c = true) →
      FirstLine (l ++ lf :: r) l r
  | crlf {l r : List UInt8} : (∀ c ∈ l, isTextChar c = true) →
      FirstLine (l ++ cr :: Ascii.lf :: r) l r

/-- `Lines s ls`: the lines of the text `s` are `ls`. -/
inductive Lines : List UInt8 → List (List UInt8) → Prop where
  | nil : Lines [] []
  | cons {s l r : List UInt8} {ls : List (List UInt8)} :
      FirstLine s l r → Lines r ls → Lines s (l :: ls)

/-! ## A text has one decomposition -/

theorem takeWhile_textChar {l : List UInt8} {c : UInt8} {r : List UInt8}
    (hl : ∀ c ∈ l, isTextChar c = true) (hc : isTextChar c = false) :
    (l ++ c :: r).takeWhile isTextChar = l := by
  rw [List.takeWhile_append_of_pos hl]
  simp [hc]

theorem FirstLine.eq_takeWhile {s l r : List UInt8} (h : FirstLine s l r) :
    l = s.takeWhile isTextChar := by
  cases h with
  | last _ hl => exact (List.takeWhile_eq_self_iff.mpr hl).symm
  | lf hl => exact (takeWhile_textChar hl (by decide)).symm
  | crlf hl => exact (takeWhile_textChar hl (by decide)).symm

theorem FirstLine.textChar {s l r : List UInt8} (h : FirstLine s l r) :
    ∀ c ∈ l, isTextChar c = true := by
  cases h with
  | last _ hl => exact hl
  | lf hl => exact hl
  | crlf hl => exact hl

theorem FirstLine.length_lt {s l r : List UInt8} (h : FirstLine s l r) :
    r.length < s.length := by
  cases h with
  | last hne _ => exact List.length_pos_iff.mpr hne
  | lf _ => simp; omega
  | crlf _ => simp; omega

/-- What is left after the line decides how the line ended. -/
theorem FirstLine.split {s l r : List UInt8} (h : FirstLine s l r) :
    (s = l ∧ r = [] ∧ l ≠ []) ∨ s = l ++ Ascii.lf :: r ∨
      s = l ++ cr :: Ascii.lf :: r := by
  cases h with
  | last hne _ => exact Or.inl ⟨rfl, rfl, hne⟩
  | lf _ => exact Or.inr (Or.inl rfl)
  | crlf _ => exact Or.inr (Or.inr rfl)

theorem FirstLine.unique {s l r l' r' : List UInt8} (h : FirstLine s l r)
    (h' : FirstLine s l' r') : l = l' ∧ r = r' := by
  have hl : l = l' := h.eq_takeWhile.trans h'.eq_takeWhile.symm
  subst hl
  refine ⟨rfl, ?_⟩
  rcases h.split with ⟨rfl, rfl, -⟩ | hs | hs <;>
    rcases h'.split with ⟨hs', rfl, -⟩ | hs' | hs'
  · rfl
  · simp at hs'
  · simp at hs'
  · simp [hs] at hs'
  · simpa using hs.symm.trans hs'
  · have := List.append_cancel_left (hs.symm.trans hs')
    simp at this
  · simp [hs] at hs'
  · have := List.append_cancel_left (hs.symm.trans hs')
    simp at this
  · simpa using hs.symm.trans hs'

theorem Lines.unique : ∀ {s : List UInt8} {ls ls' : List (List UInt8)},
    Lines s ls → Lines s ls' → ls = ls'
  | _, _, _, .nil, .nil => rfl
  | _, _, _, .nil, .cons hf _ => absurd hf.length_lt (by simp)
  | _, _, _, .cons hf _, .nil => absurd hf.length_lt (by simp)
  | _, _, _, .cons hf hr, .cons hf' hr' => by
      obtain ⟨rfl, rfl⟩ := hf.unique hf'
      rw [hr.unique hr']

theorem Lines.of_firstLine {s l r : List UInt8} {ls : List (List UInt8)}
    (hf : FirstLine s l r) (h : Lines s ls) :
    ∃ ls', ls = l :: ls' ∧ Lines r ls' := by
  cases h with
  | nil => exact absurd hf.length_lt (by simp)
  | cons hf' hr =>
      obtain ⟨rfl, rfl⟩ := hf.unique hf'
      exact ⟨_, rfl, hr⟩

end Nawam
