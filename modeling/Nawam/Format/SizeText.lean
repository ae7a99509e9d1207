import Nawam.Base.Bytes

/-!
# Sizes as text

`SizeToHumanReadable` of `stdio.c` as it is called for the log, with
`copy_to_log` set and without `fake_units`. The calculation is one with
`double`s. A size becomes a `double` by rounding it to 53 bits, and from there
on the divisions by 1024 are exact: `hr_size` is what the rounded size makes,
divided by a power of 1024, and the fractions in between are kept as integers
over that power.

The text is a number of at most seven characters, a blank and a unit
(`sizeToHumanReadable_parts`).
-/

namespace Nawam

/-! ## Source -/

/-- `n / d` rounded to the nearest integer, and to the even one of two. -/
def roundEven (n d : ℕ) : ℕ :=
  if 2 * (n % d) < d ∨ 2 * (n % d) = d ∧ n / d % 2 = 0 then n / d else n / d + 1

/-- An integer as a `double`, of 53 bits. -/
def toDouble (n : ℕ) : ℕ := roundEven n (2 ^ (n.log2 - 52)) * 2 ^ (n.log2 - 52)

/-- `"%d"` -/
def decimal (n : ℕ) : List UInt8 := (Nat.toDigits 10 n).map fun c => .ofNat c.toNat

/-- `"%0.1f"` of `n / d` -/
def decimalTenths (n d : ℕ) : List UInt8 :=
  decimal (roundEven (10 * n) d / 10) ++ 46 :: decimal (roundEven (10 * n) d % 10)

/-- `default_msg_table`, from `MSG_020` on -/
def sizeUnits : List (List UInt8) :=
  [Ascii.text "bytes", Ascii.text "KB", Ascii.text "MB", Ascii.text "GB", Ascii.text "TB",
    Ascii.text "PB"]

/-- The loop that divides, with so many turns left. -/
def sizeSuffix (hrSize : ℕ) : ℕ → ℕ → ℕ
  | 0, suffix => suffix
  | left + 1, suffix =>
      if hrSize < 1024 ^ (suffix + 1) then suffix
      else sizeSuffix hrSize left (suffix + 1)

/-- The test for a number that is written without a decimal. -/
def noTenths (hrSize d : ℕ) : Prop :=
  2 * toDouble (toDouble (10 * hrSize) - 10 * (hrSize / d) * d) < d

instance (hrSize d : ℕ) : Decidable (noTenths hrSize d) := inferInstanceAs (Decidable (_ < _))

def sizeNumber (hrSize suffix : ℕ) : List UInt8 :=
  if suffix = 0 then decimal hrSize
  else if noTenths hrSize (1024 ^ suffix) then decimal (roundEven hrSize (1024 ^ suffix))
  else decimalTenths hrSize (1024 ^ suffix)

/-- `SizeToHumanReadable(size, TRUE, FALSE)` -/
def sizeToHumanReadable (size : UInt64) : List UInt8 :=
  let hrSize := toDouble size.toNat
  let suffix := sizeSuffix hrSize 5 0
  (sizeNumber hrSize suffix ++ 32 :: sizeUnits.getD suffix []).take 31

/-! ## Rounding -/

variable {n d k : ℕ}

theorem div_le_roundEven (n d : ℕ) : n / d ≤ roundEven n d := by
  unfold roundEven
  split <;> omega

theorem roundEven_le (hd : 0 < d) (h : n ≤ k * d) : roundEven n d ≤ k := by
  have hdiv : n / d ≤ k := Nat.div_le_of_le_mul (Nat.mul_comm k d ▸ h)
  unfold roundEven
  split_ifs with hround
  · exact hdiv
  · -- it is not `k`, of which there would be no remainder
    rcases hdiv.lt_or_eq with hlt | rfl
    · exact hlt
    · have hmod : n % d = 0 := by
        have := Nat.div_add_mod n d
        rw [Nat.mul_comm] at this
        omega
      exact absurd (Or.inl (by omega)) hround

theorem toDouble_of_lt (h : n < 2 ^ 53) : toDouble n = n := by
  have hlog : n.log2 - 52 = 0 := by
    rcases Nat.eq_zero_or_pos n with rfl | hpos
    · rfl
    · have := (Nat.log2_lt hpos.ne').mpr h
      omega
  rw [toDouble, hlog, pow_zero, mul_one]
  simp [roundEven, Nat.mod_one]

theorem toDouble_le (h : n ≤ 2 ^ k) (hk : 52 ≤ k) : toDouble n ≤ 2 ^ k := by
  have hlog : n.log2 - 52 ≤ k := by
    rcases Nat.eq_zero_or_pos n with rfl | hpos
    · exact Nat.zero_le _
    · have := (Nat.log2_lt hpos.ne').mpr (h.trans_lt (Nat.pow_lt_pow_succ Nat.one_lt_two))
      omega
  have hsplit : 2 ^ (k - (n.log2 - 52)) * 2 ^ (n.log2 - 52) = 2 ^ k := Nat.pow_sub_mul_pow 2 hlog
  calc toDouble n ≤ 2 ^ (k - (n.log2 - 52)) * 2 ^ (n.log2 - 52) :=
        Nat.mul_le_mul_right _ (roundEven_le (Nat.two_pow_pos _) (hsplit.symm ▸ h))
    _ = 2 ^ k := hsplit

/-- Rounding does not go below a power of two. -/
theorem le_toDouble (h : 2 ^ k ≤ n) : 2 ^ k ≤ toDouble n := by
  have hpos : n ≠ 0 := (Nat.lt_of_lt_of_le (Nat.two_pow_pos k) h).ne'
  have hk : k ≤ n.log2 := (Nat.le_log2 hpos).mpr h
  have hsplit : 2 ^ (n.log2 - (n.log2 - 52)) * 2 ^ (n.log2 - 52) = 2 ^ n.log2 :=
    Nat.pow_sub_mul_pow 2 (Nat.sub_le _ _)
  have hdiv : 2 ^ (n.log2 - (n.log2 - 52)) ≤ n / 2 ^ (n.log2 - 52) := by
    rw [Nat.le_div_iff_mul_le (Nat.two_pow_pos _), hsplit]
    exact Nat.log2_self_le hpos
  calc 2 ^ k ≤ 2 ^ n.log2 := Nat.pow_le_pow_right (by decide) hk
    _ = 2 ^ (n.log2 - (n.log2 - 52)) * 2 ^ (n.log2 - 52) := hsplit.symm
    _ ≤ toDouble n := Nat.mul_le_mul_right _ (hdiv.trans (div_le_roundEven n _))

/-! ## The parts of the text -/

theorem decimal_digits {c : UInt8} (h : c ∈ decimal n) : isDigit c = true := by
  obtain ⟨a, ha, rfl⟩ := List.mem_map.mp h
  have hdigit := Nat.isDigit_of_mem_toDigits (by decide) (by decide) ha
  simp only [Char.isDigit, ge_iff_le, Bool.and_eq_true, decide_eq_true_eq, UInt32.le_iff_toNat_le]
    at hdigit
  have hmin : 48 ≤ a.toNat := hdigit.1
  have hmax : a.toNat ≤ 57 := hdigit.2
  have hnat : (UInt8.ofNat a.toNat).toNat = a.toNat := UInt8.toNat_ofNat_of_lt' (by
    show a.toNat < 256
    omega)
  simp [isDigit, UInt8.le_iff_toNat_le, hnat, hmin, hmax]

theorem decimal_length (hk : 0 < k) (h : n < 10 ^ k) : (decimal n).length ≤ k := by
  rw [decimal, List.length_map]
  exact (Nat.length_toDigits_le_iff (by decide) hk).mpr h

theorem le_sizeSuffix (hrSize : ℕ) : ∀ left suffix, suffix ≤ sizeSuffix hrSize left suffix := by
  intro left
  induction left with
  | zero => exact fun suffix => le_rfl
  | succ left ih =>
      intro suffix
      rw [sizeSuffix]
      split
      case isTrue => exact le_rfl
      case isFalse => exact (Nat.le_succ suffix).trans (ih (suffix + 1))

/-- The loop is left at once for what is less than 1 KB. -/
theorem sizeSuffix_eq_zero_iff (hrSize : ℕ) : sizeSuffix hrSize 5 0 = 0 ↔ hrSize < 1024 := by
  have hone : 1024 ^ (0 + 1) = 1024 := rfl
  rw [sizeSuffix, hone]
  split_ifs with hlt
  · exact iff_of_true rfl hlt
  · exact iff_of_false (Nat.ne_of_gt (le_sizeSuffix hrSize 4 1)) hlt

/-- The divided size is small, the last unit being large enough. -/
theorem sizeSuffix_bound {hrSize : ℕ} (h : hrSize ≤ 2 ^ 64) :
    ∀ left suffix, left + suffix = 5 →
      sizeSuffix hrSize left suffix ≤ 5 ∧ hrSize ≤ 16384 * 1024 ^ sizeSuffix hrSize left suffix := by
  intro left
  induction left with
  | zero =>
      rintro suffix hsum
      obtain rfl : suffix = 5 := by omega
      rw [sizeSuffix]
      exact ⟨le_rfl, h.trans (by decide)⟩
  | succ left ih =>
      intro suffix hsum
      rw [sizeSuffix]
      split
      case isTrue hlt =>
        rw [Nat.pow_succ] at hlt
        exact ⟨by omega, by omega⟩
      case isFalse => exact ih (suffix + 1) (by omega)

/-- The number in the text: digits and a dot, seven at most. -/
structure IsSizeNumber (number : List UInt8) : Prop where
  length_le : number.length ≤ 7
  plain : ∀ c ∈ number, isDigit c = true ∨ c = 46

theorem decimal_isSizeNumber (h : n ≤ 16384) : IsSizeNumber (decimal n) where
  length_le := (decimal_length (k := 5) (by decide) (by omega)).trans (by decide)
  plain _ hc := .inl (decimal_digits hc)

theorem decimalTenths_isSizeNumber (hd : 0 < d) (h : n ≤ 16384 * d) :
    IsSizeNumber (decimalTenths n d) := by
  have htenths : roundEven (10 * n) d ≤ 163840 := roundEven_le hd (by omega)
  have hwhole : (decimal (roundEven (10 * n) d / 10)).length ≤ 5 :=
    decimal_length (by decide) (by omega)
  have htenth : (decimal (roundEven (10 * n) d % 10)).length ≤ 1 :=
    decimal_length (by decide) (by omega)
  refine ⟨by simp [decimalTenths]; omega, ?_⟩
  intro c hc
  rcases List.mem_append.mp hc with hc | hc
  · exact .inl (decimal_digits hc)
  · rcases List.mem_cons.mp hc with rfl | hc
    · exact .inr rfl
    · exact .inl (decimal_digits hc)

theorem sizeNumber_isSizeNumber {hrSize suffix : ℕ} (h : hrSize ≤ 16384 * 1024 ^ suffix) :
    IsSizeNumber (sizeNumber hrSize suffix) := by
  have hd : 0 < 1024 ^ suffix := Nat.pow_pos (by decide)
  unfold sizeNumber
  split_ifs with hzero htenths
  · subst hzero
    exact decimal_isSizeNumber (by simpa using h)
  · exact decimal_isSizeNumber (roundEven_le hd h)
  · exact decimalTenths_isSizeNumber hd h

/-- The text is a number, a blank and a unit, which is `bytes` exactly for less
than 1 KB. -/
theorem sizeToHumanReadable_parts (size : UInt64) :
    ∃ number unit, sizeToHumanReadable size = number ++ 32 :: unit ∧ IsSizeNumber number ∧
      (size < 1024 ∧ unit = Ascii.text "bytes" ∧ number.length ≤ 4 ∨
        1024 ≤ size ∧ unit ∈ sizeUnits.tail) := by
  have hrLe : toDouble size.toNat ≤ 2 ^ 64 := toDouble_le size.toNat_lt.le (by decide)
  obtain ⟨hsuffix, hbound⟩ := sizeSuffix_bound hrLe 5 0 rfl
  have hnumber := sizeNumber_isSizeNumber hbound
  have hzero := sizeSuffix_eq_zero_iff (toDouble size.toNat)
  have huncut : sizeToHumanReadable size = sizeNumber (toDouble size.toNat)
      (sizeSuffix (toDouble size.toNat) 5 0) ++
        32 :: sizeUnits.getD (sizeSuffix (toDouble size.toNat) 5 0) [] := by
    rw [sizeToHumanReadable]
    refine List.take_of_length_le ?_
    have hunits : ∀ i ≤ 5, (sizeUnits.getD i []).length ≤ 5 := by decide
    have hunit := hunits _ hsuffix
    have hlength := hnumber.length_le
    simp only [List.length_append, List.length_cons]
    omega
  refine ⟨_, _, huncut, hnumber, ?_⟩
  rw [UInt64.lt_iff_toNat_lt, UInt64.le_iff_toNat_le]
  have h1024 : (1024 : UInt64).toNat = 2 ^ 10 := rfl
  rw [h1024]
  rcases Nat.lt_or_ge size.toNat (2 ^ 10) with hlt | hge
  · have hsame : toDouble size.toNat = size.toNat :=
      toDouble_of_lt (hlt.trans (Nat.pow_lt_pow_right (by decide) (by decide)))
    rw [hsame] at hzero ⊢
    rw [hzero.mpr hlt]
    exact .inl ⟨hlt, rfl, decimal_length (by decide) (by omega)⟩
  · have hpos : sizeSuffix (toDouble size.toNat) 5 0 ≠ 0 := by
      rw [Ne, hzero, Nat.not_lt]
      exact le_toDouble hge
    refine .inr ⟨hge, ?_⟩
    generalize sizeSuffix (toDouble size.toNat) 5 0 = suffix at hsuffix hpos ⊢
    match suffix, hsuffix, hpos with
    | 1, _, _ | 2, _, _ | 3, _, _ | 4, _, _ | 5, _, _ => simp [sizeUnits]

end Nawam
