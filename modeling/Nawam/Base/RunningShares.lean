import Mathlib.Algebra.BigOperators.Group.List.Basic
import Mathlib.Algebra.Order.Ring.Int
import Mathlib.Tactic.Ring

/-!
# Running shares

An amount is shared out in proportion to weights, one share after the other. Each is the part of
what remains that its weight is of the weights that remain, rounded down, so that what one loses
by rounding goes to those behind it.
-/

namespace Nawam

def runningShares (remaining weight : ℤ) : List ℤ → List ℤ
  | [] => []
  | h :: hs =>
      let share := (remaining * h).tdiv weight
      share :: runningShares (remaining - share) (weight - h) hs

/-- Nothing is lost: the last share is what remains. -/
theorem sum_runningShares (hs : List ℤ) {h : ℤ} (hlast : h ≠ 0) (remaining : ℤ) :
    (runningShares remaining (hs.sum + h) (hs ++ [h])).sum = remaining := by
  induction hs generalizing remaining with
  | nil =>
      rw [List.sum_nil, zero_add, List.nil_append, runningShares, runningShares, List.sum_singleton]
      exact Int.mul_tdiv_cancel _ hlast
  | cons h' hs ih =>
      rw [List.cons_append, runningShares, List.sum_cons, List.sum_cons, add_assoc,
        add_sub_cancel_left, ih, add_sub_cancel]

section

variable {a t h : ℤ}

theorem share_eq (ha : 0 ≤ a) (hh : 0 ≤ h) : (a * h).tdiv t = a * h / t :=
  Int.tdiv_eq_ediv_of_nonneg (mul_nonneg ha hh)

theorem share_bounds (ha : 0 ≤ a) (hh : 0 ≤ h) (hle : h ≤ t) (ht : 0 < t) :
    0 ≤ (a * h).tdiv t ∧ (a * h).tdiv t ≤ a := by
  rw [share_eq ha hh]
  refine ⟨Int.ediv_nonneg (mul_nonneg ha hh) ht.le, ?_⟩
  exact Int.ediv_le_of_le_mul ht (mul_le_mul_of_nonneg_left hle ha)

theorem share_lt (ha : 0 < a) (hh : 0 ≤ h) (hlt : h < t) : (a * h).tdiv t < a := by
  rw [share_eq ha.le hh, Int.ediv_lt_iff_lt_mul (hh.trans_lt hlt)]
  exact mul_lt_mul_of_pos_left hlt ha

theorem one_le_share_iff (ha : 0 ≤ a) (hh : 0 ≤ h) (ht : 0 < t) :
    1 ≤ (a * h).tdiv t ↔ t ≤ a * h := by
  rw [share_eq ha hh, Int.le_ediv_iff_mul_le ht, one_mul]

/-- Two shares are left, of what the first one has left over. -/
theorem one_le_second_share_iff {h₂ h₃ : ℤ} (ha : 0 ≤ a) (hh : 0 ≤ h) (hh₂ : 0 < h₂)
    (ht : t = h + h₂ + h₃) (htotal : 0 < t) :
    h₂ + h₃ ≤ (a - (a * h).tdiv t) * h₂ ↔ (h₃ + h₂ - 1) / h₂ * t < a * (h₂ + h₃) := by
  have hceil (r : ℤ) : h₂ + h₃ ≤ r * h₂ ↔ (h₃ + h₂ - 1) / h₂ < r := by
    rw [Int.ediv_lt_iff_lt_mul hh₂]
    omega
  rw [hceil, share_eq ha hh, lt_sub_comm, Int.ediv_lt_iff_lt_mul htotal, sub_mul, lt_sub_comm]
  have hrest : a * t - a * h = a * (h₂ + h₃) := by
    rw [ht]
    ring
  rw [hrest]

end

end Nawam
