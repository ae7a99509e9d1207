import Nawam.Base.Bytes
import Mathlib.Data.Nat.Basic
import Mathlib.Data.Int.Init

/-!
# Rounding to a multiple

Offsets and sizes rounded down or up to the multiples of an alignment, by
the division and multiplication a program uses for it: first on the naturals,
then on machine words of `w` bits, where the sum and the product can wrap.
-/

namespace Nawam

/-- The largest multiple of `y` that is not above `x`. -/
def floorAlign (x y : ℕ) : ℕ := x / y * y

/-- The least multiple of `y` that is not below `x`. -/
def ceilAlign (x y : ℕ) : ℕ := (x + y - 1) / y * y

theorem dvd_floorAlign (x y : ℕ) : y ∣ floorAlign x y := Nat.dvd_mul_left ..

theorem dvd_ceilAlign (x y : ℕ) : y ∣ ceilAlign x y := Nat.dvd_mul_left ..

theorem floorAlign_le (x y : ℕ) : floorAlign x y ≤ x := Nat.div_mul_le_self x y

theorem lt_floorAlign_add {y : ℕ} (x : ℕ) (hy : 0 < y) :
    x < floorAlign x y + y := by
  have hdiv : y * (x / y) + x % y = x := Nat.div_add_mod x y
  have hmod : x % y < y := Nat.mod_lt x hy
  rw [floorAlign, Nat.mul_comm]
  omega

/-- A multiple that is not above `x` is not above what `x` is rounded to. -/
theorem le_floorAlign {x y z : ℕ} (hdvd : y ∣ z) (hle : z ≤ x) :
    z ≤ floorAlign x y := by
  obtain ⟨k, rfl⟩ := hdvd
  cases y with
  | zero => simp
  | succ y =>
      rw [floorAlign, Nat.mul_comm]
      apply Nat.mul_le_mul_right
      exact (Nat.le_div_iff_mul_le (Nat.succ_pos y)).mpr (by rwa [Nat.mul_comm])

theorem ceilAlign_eq_floorAlign (x y : ℕ) :
    ceilAlign x y = floorAlign (x + y - 1) y := rfl

theorem le_ceilAlign {y : ℕ} (x : ℕ) (hy : 0 < y) : x ≤ ceilAlign x y := by
  have h : x + y - 1 < floorAlign (x + y - 1) y + y := lt_floorAlign_add _ hy
  rw [ceilAlign_eq_floorAlign]
  omega

theorem ceilAlign_lt {y : ℕ} (x : ℕ) (hy : 0 < y) : ceilAlign x y < x + y := by
  have h : floorAlign (x + y - 1) y ≤ x + y - 1 := floorAlign_le _ _
  rw [ceilAlign_eq_floorAlign]
  omega

/-- A multiple that is not below `x` is not below what `x` is rounded to. -/
theorem ceilAlign_le {x y z : ℕ} (hy : 0 < y) (hdvd : y ∣ z) (hle : x ≤ z) :
    ceilAlign x y ≤ z := by
  obtain ⟨k, rfl⟩ := hdvd
  rw [ceilAlign, Nat.mul_comm]
  apply Nat.mul_le_mul_left
  have h : (x + y - 1) / y < k + 1 := by
    rw [Nat.div_lt_iff_lt_mul hy, Nat.succ_mul, Nat.mul_comm k y]
    omega
  omega

theorem ceilAlign_pos {x y : ℕ} (hy : 0 < y) (hx : 0 < x) :
    0 < ceilAlign x y :=
  lt_of_lt_of_le hx (le_ceilAlign x hy)

theorem ceilAlign_zero (y : ℕ) : ceilAlign 0 y = 0 := by
  cases y with
  | zero => rfl
  | succ y => rw [ceilAlign, Nat.div_eq_of_lt (by omega), Nat.zero_mul]

theorem ceilAlign_of_dvd {x y : ℕ} (hy : 0 < y) (h : y ∣ x) :
    ceilAlign x y = x :=
  le_antisymm (ceilAlign_le hy h le_rfl) (le_ceilAlign x hy)

/-! ## Machine words -/

def wrapSub (w a b : ℕ) : ℕ := (a + 2 ^ w - b) % 2 ^ w

/-- `(LONG)x`, of 32 bits -/
def toLong (x : ℕ) : ℤ := (x : ℤ).bmod (2 ^ 32)

/-- `((x) / (y)) * (y)` on words -/
def floorAlignWord (w x y : ℕ) : C ℕ := do
  let q ← divide x y
  return q * y % 2 ^ w

/-- `(((x) + (y) - 1) / (y)) * (y)` on words -/
def ceilAlignWord (w x y : ℕ) : C ℕ := do
  let q ← divide (wrapSub w (x + y) 1) y
  return q * y % 2 ^ w

/-- A difference that is not negative does not wrap. -/
theorem wrapSub_of_le {w a b : ℕ} (h : b ≤ a) (hlt : a - b < 2 ^ w) :
    wrapSub w a b = a - b := by
  have heq : a + 2 ^ w - b = a - b + 2 ^ w := by omega
  rw [wrapSub, heq, Nat.add_mod_right, Nat.mod_eq_of_lt hlt]

theorem toLong_of_lt {x : ℕ} (h : x < 2 ^ 31) : toLong x = x := by
  exact Int.bmod_eq_of_le (by omega) (by omega)

theorem floorAlignWord_exact {w x y : ℕ} (hy : 0 < y) (hx : x < 2 ^ w) :
    floorAlignWord w x y = .ok (floorAlign x y) := by
  have hle : floorAlign x y ≤ x := floorAlign_le x y
  have hmod : floorAlign x y % 2 ^ w = floorAlign x y :=
    Nat.mod_eq_of_lt (lt_of_le_of_lt hle hx)
  simp only [floorAlignWord, divide_of_pos hy, C.ok_bind, C.pure_eq]
  rw [← floorAlign, hmod]

theorem ceilAlignWord_exact {w x y : ℕ} (hy : 0 < y) (h : x + y ≤ 2 ^ w) :
    ceilAlignWord w x y = .ok (ceilAlign x y) := by
  have hsum : wrapSub w (x + y) 1 = x + y - 1 := by
    have hpow : 0 < 2 ^ w := Nat.two_pow_pos w
    exact wrapSub_of_le (by omega) (by omega)
  have hlt : ceilAlign x y < x + y := ceilAlign_lt x hy
  have hmod : ceilAlign x y % 2 ^ w = ceilAlign x y :=
    Nat.mod_eq_of_lt (lt_of_lt_of_le hlt h)
  simp only [ceilAlignWord, hsum, divide_of_pos hy, C.ok_bind, C.pure_eq]
  rw [← ceilAlign, hmod]

/-- A sum that does not fit the word comes out below the alignment, so nothing is left of
it. -/
theorem ceilAlignWord_wraps {w x y : ℕ} (hy : 0 < y) (hx : x < 2 ^ w) (hle : y ≤ 2 ^ w)
    (h : 2 ^ w < x + y) : ceilAlignWord w x y = .ok 0 := by
  have hsum : wrapSub w (x + y) 1 = x + y - 1 - 2 ^ w := by
    have heq : x + y + 2 ^ w - 1 = x + y - 1 - 2 ^ w + 2 ^ w + 2 ^ w := by omega
    rw [wrapSub, heq, Nat.add_mod_right, Nat.add_mod_right, Nat.mod_eq_of_lt (by omega)]
  have hzero : (x + y - 1 - 2 ^ w) / y = 0 := Nat.div_eq_of_lt (by omega)
  simp only [ceilAlignWord, hsum, divide_of_pos hy, C.ok_bind, C.pure_eq, hzero, Nat.zero_mul,
    Nat.zero_mod]

end Nawam
