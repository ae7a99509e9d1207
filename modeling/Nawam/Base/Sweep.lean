import Mathlib.Data.List.Basic
import Mathlib.Data.Nat.Notation

/-!
# Sweeping over a list

A sweep goes over a list from the left, rewrites the elements behind each marked one
and goes on behind those. It does not look at the last `guard` elements, so what is
rewritten is always there. What it does depends on the position, on the marks that it
comes by and on nothing else, so that a sweep is undone by one that undoes each
rewriting (`sweep_sweep`).

`sweepFrom` is the same with the part of the list that is done with in front, for
programs that rewrite the list in place.
-/

namespace Nawam

variable {α : Type}

section Sweep

variable (mark : α → Bool) (width guard : ℕ) (f : ℕ → List α → List α)

/-- The list from position `i` on is swept. -/
def sweep (i : ℕ) : List α → List α
  | [] => []
  | x :: xs =>
      if xs.length < guard then x :: xs
      else if mark x then x :: (f i (xs.take width) ++ sweep (i + 1 + width) (xs.drop width))
      else x :: sweep (i + 1) xs
termination_by xs => xs.length
decreasing_by all_goals simp only [List.length_cons, List.length_drop]; omega

/-- The list is swept from position `i` on. -/
def sweepFrom (xs : List α) (i : ℕ) : List α :=
  xs.take i ++ sweep mark width guard f i (xs.drop i)

end Sweep

variable {mark : α → Bool} {width guard : ℕ} {f g : ℕ → List α → List α}

theorem sweep_end (i : ℕ) {xs : List α} (h : xs.length ≤ guard) :
    sweep mark width guard f i xs = xs := by
  cases xs with
  | nil => rw [sweep]
  | cons x xs =>
      rw [List.length_cons] at h
      rw [sweep, if_pos (by omega)]

theorem sweep_skip (i : ℕ) {x : α} {xs : List α} (hmark : mark x = false) :
    sweep mark width guard f i (x :: xs) = x :: sweep mark width guard f (i + 1) xs := by
  by_cases h : xs.length < guard
  · rw [sweep, if_pos h, sweep_end (i + 1) (Nat.le_of_lt h)]
  · rw [sweep, if_neg h, if_neg (by rw [hmark]; exact Bool.false_ne_true)]

theorem sweep_hit (i : ℕ) {x : α} {xs : List α} (h : guard ≤ xs.length) (hmark : mark x = true) :
    sweep mark width guard f i (x :: xs) =
      x :: (f i (xs.take width) ++ sweep mark width guard f (i + 1 + width) (xs.drop width)) := by
  rw [sweep, if_neg (by omega), if_pos hmark]

theorem sweep_length (hwidth : width ≤ guard)
    (hf : ∀ i xs, xs.length = width → (f i xs).length = width) (i : ℕ) (xs : List α) :
    (sweep mark width guard f i xs).length = xs.length := by
  induction i, xs using sweep.induct mark width guard with
  | case1 i => rw [sweep]
  | case2 i x xs h => rw [sweep, if_pos h]
  | case3 i x xs h hmark ih =>
      have htake : (xs.take width).length = width := List.length_take_of_le (by omega)
      rw [sweep, if_neg h, if_pos hmark, List.length_cons, List.length_append, ih, hf _ _ htake,
        List.length_drop, List.length_cons]
      omega
  | case4 i x xs h hmark ih =>
      rw [sweep, if_neg h, if_neg hmark, List.length_cons, ih, List.length_cons]

/-- A sweep is undone by one that undoes each rewriting, where the positions are below `n`. -/
theorem sweep_sweep {n : ℕ} (hwidth : width ≤ guard)
    (hf : ∀ i xs, xs.length = width → (f i xs).length = width)
    (hgf : ∀ i xs, i < n → xs.length = width → g i (f i xs) = xs) (i : ℕ) (xs : List α)
    (hn : i + xs.length ≤ n) :
    sweep mark width guard g i (sweep mark width guard f i xs) = xs := by
  induction i, xs using sweep.induct mark width guard with
  | case1 i => rw [sweep, sweep]
  | case2 i x xs h => rw [sweep_end i (show (x :: xs).length ≤ guard from h), sweep_end i h]
  | case3 i x xs h hmark ih =>
      have htake : (xs.take width).length = width := List.length_take_of_le (by omega)
      have hlength : (sweep mark width guard f (i + 1 + width) (xs.drop width)).length =
          xs.length - width := by
        rw [sweep_length hwidth hf, List.length_drop]
      have hf' := hf i _ htake
      rw [List.length_cons] at hn
      rw [sweep_hit i (by omega) hmark, sweep_hit i ?_ hmark, List.take_left' hf',
        List.drop_left' hf', hgf i _ (by omega) htake, ih ?_, List.take_append_drop]
      · rw [List.length_drop]
        omega
      · rw [List.length_append, hf', hlength]
        omega
  | case4 i x xs h hmark ih =>
      rw [Bool.not_eq_true] at hmark
      rw [List.length_cons] at hn
      rw [sweep_skip i hmark, sweep_skip i hmark, ih (by omega)]

/-! ## In place -/

theorem sweepFrom_end {xs : List α} {i : ℕ} (h : xs.length ≤ i + guard) :
    sweepFrom mark width guard f xs i = xs := by
  rw [sweepFrom, sweep_end i (by rw [List.length_drop]; omega), List.take_append_drop]

/-- Elements that are not marked are gone past. -/
theorem sweepFrom_skip {xs : List α} {i j : ℕ} (hij : i ≤ j) (hj : j ≤ xs.length)
    (h : ∀ k (hk : k < xs.length), i ≤ k → k < j → mark xs[k] = false) :
    sweepFrom mark width guard f xs i = sweepFrom mark width guard f xs j := by
  obtain ⟨d, rfl⟩ := Nat.exists_eq_add_of_le hij
  induction d generalizing i with
  | zero => rfl
  | succ d ih =>
      have hlt : i < xs.length := by omega
      have hnext := ih (Nat.le_add_right (i + 1) d) (by omega) fun k hk hik hkd =>
        h k hk (by omega) (by omega)
      rw [show i + (d + 1) = i + 1 + d by omega, ← hnext, sweepFrom,
        List.drop_eq_getElem_cons hlt, sweep_skip i (h i hlt (Nat.le_refl i) (by omega)), sweepFrom,
        List.take_succ_eq_append_getElem hlt, List.append_assoc]
      rfl

/-- What is behind a marked element is rewritten in place. -/
theorem sweepFrom_hit {xs : List α} {i : ℕ} (hwidth : width ≤ guard)
    (hf : ∀ i xs, xs.length = width → (f i xs).length = width) (hlt : i < xs.length)
    (h : i + guard < xs.length) (hmark : mark xs[i] = true) :
    sweepFrom mark width guard f xs i = sweepFrom mark width guard f
      (xs.take (i + 1) ++ (f i ((xs.drop (i + 1)).take width) ++ xs.drop (i + 1 + width)))
      (i + 1 + width) := by
  have htake : ((xs.drop (i + 1)).take width).length = width := by
    rw [List.length_take, List.length_drop]
    omega
  have hfront : (xs.take (i + 1)).length = i + 1 := List.length_take_of_le hlt
  have hboth : (xs.take (i + 1) ++ f i ((xs.drop (i + 1)).take width)).length = i + 1 + width := by
    rw [List.length_append, hfront, hf i _ htake]
  rw [sweepFrom, sweepFrom, List.drop_eq_getElem_cons hlt, sweep_hit i ?_ hmark,
    ← List.append_assoc, List.take_left' hboth, List.drop_left' hboth, List.drop_drop,
    List.take_succ_eq_append_getElem hlt]
  · simp only [List.append_assoc, List.cons_append, List.nil_append]
  · rw [List.length_drop]
    omega

end Nawam
