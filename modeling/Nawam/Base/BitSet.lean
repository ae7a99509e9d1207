import Mathlib.Algebra.BigOperators.Intervals
import Mathlib.Data.Finset.Card
import Mathlib.Data.UInt

/-!
# Words as sets of bits

A 64-bit word as the set of its bits: the bitwise operations are those of sets, and `a & -a` is
the lowest bit of `a`.

The bits of a word are counted in parallel by fields that are as wide as each other: neighbours
are added up into fields of twice the width, which have room for their sum whatever they are. So
the sum of all fields stays the same.
-/

namespace Nawam

/-! ## The set of the bits -/

def bitSet (a : UInt64) : Finset ℕ := (Finset.range 64).filter fun i => a.toBitVec.getLsbD i

variable {a b : UInt64} {i : ℕ}

theorem mem_bitSet : i ∈ bitSet a ↔ a.toBitVec.getLsbD i = true := by
  rw [bitSet, Finset.mem_filter, Finset.mem_range]
  refine ⟨And.right, fun h => ⟨?_, h⟩⟩
  exact BitVec.lt_of_getLsbD h

theorem bitSet_injective : Function.Injective bitSet := by
  intro a b h
  apply UInt64.toBitVec_inj.mp
  apply BitVec.eq_of_getLsbD_eq
  intro i _
  have hi : i ∈ bitSet a ↔ i ∈ bitSet b := by rw [h]
  rw [mem_bitSet, mem_bitSet] at hi
  exact Bool.eq_iff_iff.mpr hi

theorem bitSet_zero : bitSet 0 = ∅ := by
  ext i
  rw [mem_bitSet]
  simp

theorem bitSet_or (a b : UInt64) : bitSet (a ||| b) = bitSet a ∪ bitSet b := by
  ext i
  rw [Finset.mem_union, mem_bitSet, mem_bitSet, mem_bitSet, UInt64.toBitVec_or, BitVec.getLsbD_or,
    Bool.or_eq_true]

/-- What is part of a word is taken out of it. -/
theorem bitSet_xor_of_subset (h : bitSet b ⊆ bitSet a) : bitSet (a ^^^ b) = bitSet a \ bitSet b := by
  ext i
  have hi : i ∈ bitSet b → i ∈ bitSet a := fun hb => h hb
  rw [mem_bitSet, mem_bitSet] at hi
  rw [Finset.mem_sdiff, mem_bitSet, mem_bitSet, mem_bitSet, UInt64.toBitVec_xor, BitVec.getLsbD_xor]
  cases ha : a.toBitVec.getLsbD i <;> cases hb : b.toBitVec.getLsbD i <;> simp_all

/-- `a & -a` is the lowest bit of `a`. -/
theorem bitSet_lowest (h : (bitSet a).Nonempty) : ∃ t ∈ bitSet a, bitSet (a &&& -a) = {t} := by
  refine ⟨(bitSet a).min' h, Finset.min'_mem _ h, ?_⟩
  ext i
  rw [Finset.mem_singleton, mem_bitSet, UInt64.toBitVec_and, UInt64.toBitVec_neg, BitVec.getLsbD_and,
    BitVec.getLsbD_neg]
  constructor
  · intro hi
    obtain ⟨hbit, hneg⟩ := (Bool.and_eq_true _ _).mp hi
    have hmem : i ∈ bitSet a := mem_bitSet.mpr hbit
    refine le_antisymm ?_ (Finset.min'_le _ i hmem)
    by_contra hlt
    have hmin := mem_bitSet.mp (Finset.min'_mem _ h)
    have hlow : ∃ j < i, a.toBitVec.getLsbD j = true := ⟨_, Nat.lt_of_not_le hlt, hmin⟩
    rw [hbit, decide_eq_true (BitVec.lt_of_getLsbD hbit), decide_eq_true hlow] at hneg
    cases hneg
  · rintro rfl
    have hbit := mem_bitSet.mp (Finset.min'_mem _ h)
    have hlow : ¬∃ j < (bitSet a).min' h, a.toBitVec.getLsbD j = true := by
      rintro ⟨j, hj, hbit⟩
      exact absurd (Finset.min'_le _ j (mem_bitSet.mpr hbit)) (Nat.not_le.mpr hj)
    rw [hbit, decide_eq_false hlow]
    simp

/-! ## Fields -/

/-- The sum of the lowest `n` fields of width `w` -/
def fieldSum (w : ℕ) : (n u : ℕ) → ℕ
  | 0, _ => 0
  | n + 1, u => u % 2 ^ w + fieldSum w n (u / 2 ^ w)

/-- `k` fields of width `2 * w` with their lower halves filled -/
def lowerHalves (w : ℕ) : (k : ℕ) → ℕ
  | 0 => 0
  | k + 1 => 2 ^ w - 1 + 2 ^ (2 * w) * lowerHalves w k

/-- Neighbouring fields of width `w` added up -/
def addPairs (w k u : ℕ) : ℕ := (u &&& lowerHalves w k) + ((u >>> w) &&& lowerHalves w k)

theorem and_field (w m u : ℕ) :
    u &&& (2 ^ w - 1 + 2 ^ (2 * w) * m) = u % 2 ^ w + 2 ^ (2 * w) * (u / 2 ^ (2 * w) &&& m) := by
  have hle : 2 ^ w ≤ 2 ^ (2 * w) := Nat.pow_le_pow_right (by decide) (by omega)
  have hpos := Nat.two_pow_pos w
  have hmod : u % 2 ^ w < 2 ^ (2 * w) := lt_of_lt_of_le (Nat.mod_lt _ hpos) hle
  apply Nat.eq_of_testBit_eq
  intro i
  rw [Nat.testBit_and, Nat.add_comm (2 ^ w - 1), Nat.testBit_two_pow_mul_add _ (by omega),
    Nat.add_comm (u % 2 ^ w), Nat.testBit_two_pow_mul_add _ hmod]
  by_cases hi : i < 2 * w
  · rw [if_pos hi, if_pos hi, Nat.testBit_two_pow_sub_one, Nat.testBit_mod_two_pow, Bool.and_comm]
  · rw [if_neg hi, if_neg hi, Nat.testBit_and, Nat.testBit_div_two_pow, Nat.sub_add_cancel (by omega)]

theorem addPairs_succ (w k u : ℕ) : addPairs w (k + 1) u =
    u % 2 ^ w + u / 2 ^ w % 2 ^ w + 2 ^ (2 * w) * addPairs w k (u / 2 ^ (2 * w)) := by
  have hshift : u >>> w / 2 ^ (2 * w) = (u / 2 ^ (2 * w)) >>> w := by
    rw [Nat.shiftRight_eq_div_pow, Nat.shiftRight_eq_div_pow, Nat.div_div_eq_div_mul,
      Nat.div_div_eq_div_mul, Nat.mul_comm]
  rw [addPairs, lowerHalves, and_field, and_field, hshift, Nat.shiftRight_eq_div_pow u, addPairs,
    Nat.mul_add]
  omega

/-- A field of twice the width has room for two fields. -/
theorem pair_lt {w : ℕ} (hw : 0 < w) (u v : ℕ) : u % 2 ^ w + v % 2 ^ w < 2 ^ (2 * w) := by
  have hu := Nat.mod_lt u (Nat.two_pow_pos w)
  have hv := Nat.mod_lt v (Nat.two_pow_pos w)
  have hpow : 2 ^ w * 2 ≤ 2 ^ (2 * w) := by
    rw [← Nat.pow_succ]
    exact Nat.pow_le_pow_right (by decide) (by omega)
  omega

theorem addPairs_lt {w : ℕ} (hw : 0 < w) : ∀ (k u : ℕ), addPairs w k u < 2 ^ (2 * w * k)
  | 0, u => by
      rw [addPairs, lowerHalves, Nat.and_zero, Nat.and_zero]
      exact Nat.two_pow_pos _
  | k + 1, u => by
      have hpair := pair_lt hw u (u / 2 ^ w)
      have ih := addPairs_lt hw k (u / 2 ^ (2 * w))
      rw [addPairs_succ, Nat.mul_succ, Nat.pow_add, Nat.mul_comm (2 ^ (2 * w * k))]
      calc _ < 2 ^ (2 * w) + 2 ^ (2 * w) * addPairs w k (u / 2 ^ (2 * w)) :=
            Nat.add_lt_add_right hpair _
        _ = 2 ^ (2 * w) * (addPairs w k (u / 2 ^ (2 * w)) + 1) := by
            rw [Nat.mul_add, Nat.mul_one, Nat.add_comm]
        _ ≤ 2 ^ (2 * w) * 2 ^ (2 * w * k) := Nat.mul_le_mul_left _ ih

/-- The sum of the fields stays the same. -/
theorem fieldSum_addPairs {w : ℕ} (hw : 0 < w) :
    ∀ k u : ℕ, fieldSum (2 * w) k (addPairs w k u) = fieldSum w (2 * k) u
  | 0, u => rfl
  | k + 1, u => by
      have hpair := pair_lt hw u (u / 2 ^ w)
      have hpow : 2 ^ (2 * w) = 2 ^ w * 2 ^ w := by rw [Nat.two_mul, Nat.pow_add]
      rw [addPairs_succ, fieldSum, Nat.add_mul_mod_self_left, Nat.mod_eq_of_lt hpair,
        Nat.add_mul_div_left _ _ (Nat.two_pow_pos _), Nat.div_eq_of_lt hpair, Nat.zero_add,
        fieldSum_addPairs hw k, show 2 * (k + 1) = 2 * k + 1 + 1 by omega, fieldSum, fieldSum,
        Nat.div_div_eq_div_mul, ← hpow, Nat.add_assoc]

theorem fieldSum_one : ∀ n u : ℕ, fieldSum 1 n u = ((Finset.range n).filter (u.testBit ·)).card
  | 0, u => rfl
  | n + 1, u => by
      have hrest : ((Finset.range n).filter fun i => (u / 2).testBit i).card =
          ∑ i ∈ Finset.range n, if u.testBit (i + 1) then 1 else 0 := by
        rw [Finset.card_filter]
        refine Finset.sum_congr rfl fun i _ => ?_
        rw [Nat.testBit_add_one]
      rw [fieldSum, Nat.pow_one, fieldSum_one n, hrest, Finset.card_filter, Finset.sum_range_succ',
        Nat.add_comm, Nat.testBit_zero]
      rcases Nat.mod_two_eq_zero_or_one u with h | h <;> rw [h] <;> rfl

theorem card_bitSet (a : UInt64) : (bitSet a).card = fieldSum 1 64 a.toNat := by
  rw [fieldSum_one, bitSet]
  rfl

end Nawam
