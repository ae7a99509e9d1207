import Nawam.Hash.Standards
import Nawam.Hash.Transforms

/-!
# The constants of the standards

The tables of `hash.c` against what the standards define their constants by:
the fractional part of a root lies between two numbers that can be raised to
the power, and the sine of a whole number is that of 1 taken many times.
-/

namespace Nawam.Standard

/-! ## Prime numbers -/

/-- The numbers below a bound that have a property, by their index. -/
theorem nth_of_filter_range {p : ℕ → Prop} [DecidablePred p] : ∀ (n : ℕ) {t : ℕ}
    (ht : t < ((List.range n).filter p).length),
    Nat.nth p t = ((List.range n).filter p)[t]
  | n + 1, t, ht => by
      have hcount : Nat.count p n = ((List.range n).filter p).length := by
        rw [← List.countP_eq_length_filter]
        rfl
      simp only [List.range_succ, List.filter_append, List.filter_singleton]
        at ht ⊢
      by_cases hfront : t < ((List.range n).filter p).length
      · rw [List.getElem_append_left hfront]
        exact nth_of_filter_range n hfront
      · by_cases hn : p n
        · simp only [hn, decide_true, cond_true, List.length_append,
            List.length_singleton] at ht ⊢
          have hlast : t = Nat.count p n := by omega
          rw [List.getElem_append_right (by omega), List.getElem_singleton, hlast]
          exact Nat.nth_count hn
        · simp only [hn, decide_false, cond_false, List.append_nil] at ht
          exact absurd ht hfront

def primes : List ℕ :=
  [2, 3, 5, 7, 11, 13, 17, 19, 23, 29, 31, 37, 41, 43, 47, 53, 59, 61, 67, 71,
    73, 79, 83, 89, 97, 101, 103, 107, 109, 113, 127, 131, 137, 139, 149, 151,
    157, 163, 167, 173, 179, 181, 191, 193, 197, 199, 211, 223, 227, 229, 233,
    239, 241, 251, 257, 263, 269, 271, 277, 281, 283, 293, 307, 311, 313, 317,
    331, 337, 347, 349, 353, 359, 367, 373, 379, 383, 389, 397, 401, 409]

/-- Below 21 * 21 the divisors below 21 decide. -/
theorem prime_iff_of_lt {p : ℕ} (hp : p < 441) :
    Nat.Prime p ↔ 2 ≤ p ∧ ∀ m < 21, 2 ≤ m → m * m ≤ p → p % m ≠ 0 := by
  rw [Nat.prime_def_le_sqrt]
  refine and_congr_right fun _ => ⟨fun h m _ hm hle hmod => ?_, fun h m hm hle hdvd => ?_⟩
  · exact h m hm (Nat.le_sqrt.mpr hle) (Nat.dvd_of_mod_eq_zero hmod)
  · have hsq := Nat.le_sqrt.mp hle
    have hlt : m < 21 := Nat.mul_self_lt_mul_self_iff.mp (hsq.trans_lt hp)
    exact h m hlt hm hsq (Nat.mod_eq_zero_of_dvd hdvd)

theorem primes_eq : (List.range 410).filter Nat.Prime = primes := by
  have hsieve : (List.range 410).filter (fun p => 2 ≤ p ∧
      ∀ m < 21, 2 ≤ m → m * m ≤ p → p % m ≠ 0) = primes := by
    decide +kernel
  rw [← hsieve]
  refine List.filter_congr fun p hp => decide_eq_decide.mpr (prime_iff_of_lt ?_)
  exact (List.mem_range.mp hp).trans (by decide)

theorem prime_eq {t : ℕ} (ht : t < 80) : prime t = primes.getD t 0 := by
  have hlt : t < ((List.range 410).filter Nat.Prime).length := by
    rw [primes_eq]
    exact ht
  rw [prime, nth_of_filter_range 410 hlt, List.getElem_eq_getD 0, primes_eq]

/-! ## Roots -/

/-- The root is `n` and a fraction of which `c` are the first bits. -/
def RootBits (w k p c n : ℕ) : Prop :=
  c < 2 ^ w ∧ (n * 2 ^ w + c) ^ k ≤ p * (2 ^ w) ^ k ∧
    p * (2 ^ w) ^ k < (n * 2 ^ w + c + 1) ^ k

instance (w k p c n : ℕ) : Decidable (RootBits w k p c n) :=
  inferInstanceAs (Decidable (_ ∧ _ ∧ _))

theorem rootFraction_eq {w k p c n : ℕ} (hk : k ≠ 0) (h : RootBits w k p c n) :
    rootFraction w k p = .ofNat w c := by
  obtain ⟨hc, hlow, hhigh⟩ := h
  set x : ℝ := (p : ℝ) ^ (1 / k : ℝ) with hx
  have hx0 : 0 ≤ x := Real.rpow_nonneg (Nat.cast_nonneg p) _
  have hpow : (2 ^ w * x) ^ k = p * (2 ^ w) ^ k := by
    rw [mul_pow, hx, one_div, Real.rpow_inv_natCast_pow (Nat.cast_nonneg p) hk,
      mul_comm]
  -- the scaled root lies between two neighbours
  have hlow' : ((n * 2 ^ w + c : ℕ) : ℝ) ≤ 2 ^ w * x := by
    apply le_of_pow_le_pow_left₀ hk (by positivity)
    rw [hpow]
    exact_mod_cast hlow
  have hhigh' : 2 ^ w * x < ((n * 2 ^ w + c + 1 : ℕ) : ℝ) := by
    apply lt_of_pow_lt_pow_left₀ k (by positivity)
    rw [hpow]
    exact_mod_cast hhigh
  push_cast at hlow' hhigh'
  have hw : (0 : ℝ) < 2 ^ w := by positivity
  have hc' : (c : ℝ) + 1 ≤ 2 ^ w := by exact_mod_cast hc
  have hfloor : ⌊x⌋ = (n : ℤ) := by
    rw [Int.floor_eq_iff]
    constructor
    · push_cast
      nlinarith
    · push_cast
      nlinarith
  have hfract : 2 ^ w * Int.fract x = 2 ^ w * x - n * 2 ^ w := by
    rw [Int.fract, hfloor]
    push_cast
    ring
  have hbits : ⌊2 ^ w * Int.fract x⌋₊ = c := by
    rw [hfract, Nat.floor_eq_iff (by linarith [hlow', Nat.cast_nonneg (α := ℝ) c])]
    constructor <;> linarith
  rw [rootFraction, hbits]

theorem k256_eq {t : ℕ} (ht : t < 64) : (k256.getD t 0).toBitVec = Sha2.K 32 t := by
  have hbits : ∀ t < 64, ∃ n < 8,
      RootBits 32 3 (primes.getD t 0) (k256.getD t 0).toNat n := by
    decide +kernel
  obtain ⟨n, -, hn⟩ := hbits t ht
  rw [Sha2.K, prime_eq (by omega), rootFraction_eq (by decide) hn]
  simp

theorem k512_eq {t : ℕ} (ht : t < 80) : (k512.getD t 0).toBitVec = Sha2.K 64 t := by
  have hbits : ∀ t < 80, ∃ n < 8,
      RootBits 64 3 (primes.getD t 0) (k512.getD t 0).toNat n := by
    decide +kernel
  obtain ⟨n, -, hn⟩ := hbits t ht
  rw [Sha2.K, prime_eq ht, rootFraction_eq (by decide) hn]
  simp

/-! ## Sines -/

/-- The two halves of the exponential series at `I`. -/
theorem sum_I_pow (n : ℕ) :
    ∑ m ∈ Finset.range (2 * n), Complex.I ^ m / (m.factorial : ℂ)
      = ((∑ k ∈ Finset.range n, (-1) ^ k / ((2 * k).factorial : ℝ) : ℝ) : ℂ)
        + ((∑ k ∈ Finset.range n, (-1) ^ k / ((2 * k + 1).factorial : ℝ) : ℝ) : ℂ)
          * Complex.I := by
  induction n with
  | zero => simp
  | succ n ih =>
      have heven : Complex.I ^ (2 * n) = (-1) ^ n := by
        rw [pow_mul, Complex.I_sq]
      rw [Nat.mul_succ, Finset.sum_range_succ, Finset.sum_range_succ, ih,
        Finset.sum_range_succ, Finset.sum_range_succ, pow_succ, heven]
      push_cast
      ring

/-- 10^16 times the cosine of 1 -/
def cosine : ℤ := 5403023058681397

/-- 10^16 times the sine of 1 -/
def sine : ℤ := 8414709848078965

/-- A point near `exp I` on the unit circle -/
noncomputable def turnBy : ℂ := (cosine + sine * Complex.I) / 10 ^ 16

theorem turnBy_near : ‖Complex.exp Complex.I - turnBy‖ ≤ 3 / 10 ^ 16 := by
  set a : ℝ := ∑ k ∈ Finset.range 10, (-1) ^ k / ((2 * k).factorial : ℝ) with ha
  set b : ℝ := ∑ k ∈ Finset.range 10, (-1) ^ k / ((2 * k + 1).factorial : ℝ)
    with hb
  have hseries : ‖Complex.exp Complex.I - (a + b * Complex.I)‖ ≤ 1 / 10 ^ 17 := by
    have hbound := Complex.exp_bound (x := Complex.I) (by simp)
      (show 0 < 2 * 10 by decide)
    rw [sum_I_pow] at hbound
    refine hbound.trans ?_
    rw [Complex.norm_I]
    norm_num [Nat.factorial]
  have hcos : |a - cosine / 10 ^ 16| ≤ 1 / 10 ^ 16 := by
    rw [ha, cosine, abs_le]
    constructor <;> norm_num [Finset.sum_range_succ, Nat.factorial]
  have hsin : |b - sine / 10 ^ 16| ≤ 1 / 10 ^ 16 := by
    rw [hb, sine, abs_le]
    constructor <;> norm_num [Finset.sum_range_succ, Nat.factorial]
  have hparts : (a + b * Complex.I : ℂ) - turnBy
      = ((a - cosine / 10 ^ 16 : ℝ) : ℂ)
        + ((b - sine / 10 ^ 16 : ℝ) : ℂ) * Complex.I := by
    rw [turnBy]
    push_cast
    ring
  have hpoint : ‖(a + b * Complex.I : ℂ) - turnBy‖ ≤ 1 / 10 ^ 16 + 1 / 10 ^ 16 := by
    rw [hparts]
    refine (norm_add_le _ _).trans ?_
    rw [norm_mul, Complex.norm_I, mul_one, Complex.norm_real, Complex.norm_real,
      Real.norm_eq_abs, Real.norm_eq_abs]
    exact add_le_add hcos hsin
  calc ‖Complex.exp Complex.I - turnBy‖
      = ‖(Complex.exp Complex.I - (a + b * Complex.I))
          + ((a + b * Complex.I) - turnBy)‖ := by rw [sub_add_sub_cancel]
    _ ≤ 1 / 10 ^ 17 + (1 / 10 ^ 16 + 1 / 10 ^ 16) :=
        (norm_add_le _ _).trans (add_le_add hseries hpoint)
    _ ≤ 3 / 10 ^ 16 := by norm_num

theorem turnBy_norm_le : ‖turnBy‖ ≤ 1 := by
  rw [turnBy, norm_div, div_le_one (by norm_num)]
  apply le_of_sq_le_sq _ (norm_nonneg _)
  rw [Complex.sq_norm, Complex.normSq_apply]
  norm_num [cosine, sine]

/-- The points on the circle stay near each other as they turn. -/
theorem turn_near (i : ℕ) :
    ‖Complex.exp Complex.I ^ i - turnBy ^ i‖ ≤ i * (3 / 10 ^ 16) := by
  induction i with
  | zero => simp
  | succ i ih =>
      have hexp : ‖Complex.exp Complex.I‖ = 1 := by
        simpa using Complex.norm_exp_ofReal_mul_I 1
      have hsplit : Complex.exp Complex.I ^ (i + 1) - turnBy ^ (i + 1)
          = (Complex.exp Complex.I ^ i - turnBy ^ i) * Complex.exp Complex.I
            + turnBy ^ i * (Complex.exp Complex.I - turnBy) := by ring
      have hpow : ‖turnBy ^ i‖ ≤ 1 := by
        rw [norm_pow]
        exact pow_le_one₀ (norm_nonneg _) turnBy_norm_le
      rw [hsplit]
      refine (norm_add_le _ _).trans ?_
      rw [norm_mul, norm_mul, hexp, mul_one]
      have hlast := mul_le_mul hpow turnBy_near (norm_nonneg _) zero_le_one
      push_cast
      linarith

/-- The powers of `turnBy`, times 10^16 in each step. -/
def turn : ℕ → ℤ × ℤ
  | 0 => (1, 0)
  | i + 1 =>
      let (c, s) := turn i
      (c * cosine - s * sine, c * sine + s * cosine)

theorem turn_eq (i : ℕ) : ((turn i).1 + (turn i).2 * Complex.I : ℂ)
    = turnBy ^ i * (10 ^ 16) ^ i := by
  induction i with
  | zero => simp [turn]
  | succ i ih =>
      have hpoint : turnBy * 10 ^ 16 = cosine + sine * Complex.I :=
        div_mul_cancel₀ _ (by norm_num)
      calc (((turn (i + 1)).1 : ℂ) + (turn (i + 1)).2 * Complex.I)
          = ((turn i).1 + (turn i).2 * Complex.I)
              * (cosine + sine * Complex.I) := by
            simp only [turn]
            push_cast
            linear_combination -((turn i).2 * sine : ℂ) * Complex.I_sq
        _ = turnBy ^ (i + 1) * (10 ^ 16) ^ (i + 1) := by
            rw [ih, ← hpoint]
            ring

theorem sin_near (i : ℕ) :
    |Real.sin i - ((turn i).2 : ℝ) / (10 ^ 16) ^ i| ≤ (i : ℝ) * (3 / 10 ^ 16) := by
  have hsin : (Complex.exp Complex.I ^ i).im = Real.sin i := by
    rw [← Complex.exp_nat_mul]
    simpa using Complex.exp_ofReal_mul_I_im i
  have hturn : (turnBy ^ i).im = ((turn i).2 : ℝ) / (10 ^ 16) ^ i := by
    have hscale : ((10 : ℂ) ^ 16) ^ i ≠ 0 := pow_ne_zero _ (by norm_num)
    have hdiv : turnBy ^ i = ((((turn i).1 : ℝ) / (10 ^ 16) ^ i : ℝ) : ℂ)
        + ((((turn i).2 : ℝ) / (10 ^ 16) ^ i : ℝ) : ℂ) * Complex.I := by
      push_cast
      rw [div_mul_eq_mul_div, ← add_div, turn_eq, mul_div_cancel_right₀ _ hscale]
    rw [hdiv, Complex.add_im, Complex.im_ofReal_mul, Complex.ofReal_im,
      Complex.I_im, mul_one, zero_add]
  rw [← hsin, ← hturn, ← Complex.sub_im]
  exact (Complex.abs_im_le_norm _).trans (turn_near i)

/-- The sine of `i` has the bits `c`, and some room on both sides. -/
def SineBits (i c : ℕ) : Prop :=
  (100 * c + 1) * (10 ^ 16) ^ i ≤ 100 * 2 ^ 32 * (turn i).2.natAbs ∧
    100 * 2 ^ 32 * (turn i).2.natAbs ≤ (100 * c + 99) * (10 ^ 16) ^ i

instance (i c : ℕ) : Decidable (SineBits i c) :=
  inferInstanceAs (Decidable (_ ∧ _))

theorem T_eq {i c : ℕ} (hi : i ≤ 64) (h : SineBits i c) :
    Md5.T i = .ofNat 32 c := by
  obtain ⟨hlow, hhigh⟩ := h
  have hscale : (0 : ℝ) < (10 ^ 16) ^ i := by positivity
  set y : ℝ := |((turn i).2 : ℝ) / (10 ^ 16) ^ i| with hy
  have hy' : y * (10 ^ 16) ^ i = (turn i).2.natAbs := by
    rw [hy, abs_div, abs_of_pos hscale, div_mul_cancel₀ _ hscale.ne', Nat.cast_natAbs,
      Int.cast_abs]
  have hlow' : (100 * c + 1 : ℝ) ≤ 100 * 2 ^ 32 * y := by
    refine le_of_mul_le_mul_right ?_ hscale
    rw [mul_assoc, hy']
    exact_mod_cast hlow
  have hhigh' : 100 * 2 ^ 32 * y ≤ (100 * c + 99 : ℝ) := by
    refine le_of_mul_le_mul_right ?_ hscale
    rw [mul_assoc, hy']
    exact_mod_cast hhigh
  have hnear : |(|Real.sin i|) - y| ≤ 64 * (3 / 10 ^ 16) := by
    refine (abs_abs_sub_abs_le_abs_sub _ _).trans ((sin_near i).trans ?_)
    have hi' : (i : ℝ) ≤ 64 := by exact_mod_cast hi
    gcongr
  rw [abs_le] at hnear
  have hfloor : ⌊2 ^ 32 * |Real.sin i|⌋₊ = c := by
    rw [Nat.floor_eq_iff (by positivity)]
    constructor <;> linarith
  rw [Md5.T, hfloor]

theorem md5Steps_eq {i : ℕ} (hi : i < 64) :
    (md5Steps.getD i (0, 0, 0)).1 = Md5.k i ∧
      (md5Steps.getD i (0, 0, 0)).2.1.toBitVec = Md5.T (i + 1) ∧
      (md5Steps.getD i (0, 0, 0)).2.2.toNat = Md5.s i := by
  have hsteps : ∀ i < 64, (md5Steps.getD i (0, 0, 0)).1 = Md5.k i ∧
      SineBits (i + 1) (md5Steps.getD i (0, 0, 0)).2.1.toNat ∧
      (md5Steps.getD i (0, 0, 0)).2.2.toNat = Md5.s i := by
    decide +kernel
  obtain ⟨hk, hsine, hs⟩ := hsteps i hi
  refine ⟨hk, ?_, hs⟩
  rw [T_eq (by omega) hsine]
  simp

end Nawam.Standard
