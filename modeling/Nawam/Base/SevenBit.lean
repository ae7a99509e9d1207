import Mathlib.Data.Nat.Digits.Defs
import Nawam.Base.Bytes

/-!
# Numbers in groups of seven bits

A number is written as its base 128 digits, the highest first, one to an
octet; bit 8 is set in every octet but the last, so a sequence of numbers
needs no separators. `readNumbers` reads such a sequence back and refuses a
number that is cut off or starts with an empty group.
-/

namespace Nawam

/-- The octets in front of the last one: no octet for zero. -/
def flaggedGroups (w : ℕ) : List UInt8 :=
  ((Nat.digits 128 w).map fun g => UInt8.ofNat (128 + g)).reverse

/-- A number in the fewest groups of seven bits. -/
def sevenBitOctets (v : ℕ) : List UInt8 :=
  flaggedGroups (v / 128) ++ [UInt8.ofNat (v % 128)]

/-- The numbers that a sequence of octets stands for. `v` is the number that
is being read, `none` between two of them. -/
def readNumbers : Option ℕ → List UInt8 → Option (List ℕ)
  | none, [] => some []
  | some _, [] => none
  | v, b :: bs =>
      let v' := v.getD 0 * 128 + b.toNat % 128
      if b.toNat < 128 then (readNumbers none bs).map (v' :: ·)
      else if v = none ∧ b = 128 then none
      else readNumbers (some v') bs

@[simp] theorem flaggedGroups_zero : flaggedGroups 0 = [] := by
  simp [flaggedGroups]

/-- The last group is the value modulo 128. -/
theorem flaggedGroups_of_pos {w : ℕ} (h : 0 < w) :
    flaggedGroups w = flaggedGroups (w / 128) ++ [UInt8.ofNat (128 + w % 128)] := by
  rw [flaggedGroups, Nat.digits_def' (by decide) h, List.map_cons, List.reverse_cons]
  rfl

theorem flaggedGroups_length_le : ∀ {d w : ℕ}, w < 128 ^ d → (flaggedGroups w).length ≤ d
  | 0, w, h => by
      have hw : w = 0 := by simpa using h
      simp [hw]
  | d + 1, w, h => by
      rcases Nat.eq_zero_or_pos w with rfl | hpos
      · simp
      · have hdiv : w / 128 < 128 ^ d := by
          rw [Nat.div_lt_iff_lt_mul (by decide), ← Nat.pow_succ]
          exact h
        have ih := flaggedGroups_length_le hdiv
        rw [flaggedGroups_of_pos hpos, List.length_append, List.length_singleton]
        exact Nat.succ_le_succ ih

/-- A number below `128 ^ d` needs no more than `d` octets. -/
theorem sevenBitOctets_length_le {d v : ℕ} (h : v < 128 ^ (d + 1)) :
    (sevenBitOctets v).length ≤ d + 1 := by
  have hdiv : v / 128 < 128 ^ d := by
    rw [Nat.div_lt_iff_lt_mul (by decide), ← Nat.pow_succ]
    exact h
  have hle := flaggedGroups_length_le hdiv
  rw [sevenBitOctets, List.length_append, List.length_singleton]
  exact Nat.succ_le_succ hle

theorem sevenBitOctets_of_lt {v : ℕ} (h : v < 128) : sevenBitOctets v = [UInt8.ofNat v] := by
  rw [sevenBitOctets, Nat.div_eq_of_lt h, Nat.mod_eq_of_lt h, flaggedGroups_zero]
  rfl

theorem toNat_plain (v : ℕ) : (UInt8.ofNat (v % 128)).toNat = v % 128 := by
  have hlt : v % 128 < 128 := Nat.mod_lt _ (by decide)
  rw [UInt8.toNat_ofNat']
  omega

theorem toNat_flagged (w : ℕ) : (UInt8.ofNat (128 + w % 128)).toNat = 128 + w % 128 := by
  have hlt : w % 128 < 128 := Nat.mod_lt _ (by decide)
  rw [UInt8.toNat_ofNat']
  omega

/-- Behind the flagged octets of `w` the reader stands inside of a number, of
which it has read `w`. -/
theorem readNumbers_flaggedGroups (w : ℕ) : ∀ tail : List UInt8,
    readNumbers none (flaggedGroups w ++ tail)
      = readNumbers (if w = 0 then none else some w) tail := by
  induction w using Nat.strong_induction_on with
  | _ w ih =>
    intro tail
    rcases Nat.eq_zero_or_pos w with rfl | hpos
    · simp
    · have hquot : w / 128 < w := Nat.div_lt_self hpos (by decide)
      have hbyte := toNat_flagged w
      have hflag : ¬128 + w % 128 < 128 := by omega
      rw [if_neg hpos.ne', flaggedGroups_of_pos hpos, List.append_assoc,
        List.singleton_append, ih (w / 128) hquot, readNumbers, hbyte, if_neg hflag]
      by_cases hq : w / 128 = 0
      · have hmod : (128 + w % 128) % 128 = w := by omega
        -- the first group of all is not empty
        have hfirst : UInt8.ofNat (128 + w % 128) ≠ 128 := by
          intro h
          rw [h] at hbyte
          have h128 : (128 : UInt8).toNat = 128 := rfl
          omega
        rw [if_pos hq, if_neg fun h => hfirst h.2, hmod]
        simp
      · have hval : w / 128 * 128 + (128 + w % 128) % 128 = w := by omega
        rw [if_neg hq, if_neg fun h => Option.some_ne_none _ h.1, Option.getD_some, hval]

/-- A number is read back, and what follows it is read for itself. -/
theorem readNumbers_sevenBitOctets (v : ℕ) (tail : List UInt8) :
    readNumbers none (sevenBitOctets v ++ tail)
      = (readNumbers none tail).map (v :: ·) := by
  rw [sevenBitOctets, List.append_assoc, List.singleton_append,
    readNumbers_flaggedGroups, readNumbers, toNat_plain,
    if_pos (Nat.mod_lt _ (by decide)), Nat.mod_mod]
  by_cases hq : v / 128 = 0
  · have hval : 0 * 128 + v % 128 = v := by omega
    rw [if_pos hq, Option.getD_none, hval]
  · have hval : v / 128 * 128 + v % 128 = v := by omega
    rw [if_neg hq, Option.getD_some, hval]

theorem readNumbers_flatMap : ∀ vs : List ℕ,
    readNumbers none (vs.flatMap sevenBitOctets) = some vs
  | [] => rfl
  | v :: vs => by
      rw [List.flatMap_cons, readNumbers_sevenBitOctets, readNumbers_flatMap vs]
      rfl

end Nawam
