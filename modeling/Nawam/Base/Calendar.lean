import Mathlib.Data.List.Lex
import Mathlib.Logic.Function.Iterate
import Mathlib.Order.Monotone.Basic
import Mathlib.Tactic.IntervalCases
import Nawam.Base.Bytes

/-!
# The Gregorian calendar and Unix time

A `DateTime` is a second of the Gregorian calendar, from 1970 on, and `tick`
is the second after it. Unix time counts ticks from `epoch`, and
`tick_iterate_eq_iff` gives the closed form of that count. The last part is
about the notation `YYYY-MM-DDThh:mm:ssZ`: its strings are ordered as the
seconds they denote.
-/

namespace Nawam

open Ascii

/-! ## Years and months -/

/-- Leap years: every fourth year, of the centuries every fourth only. -/
def IsLeap (y : ℕ) : Prop := y % 4 = 0 ∧ (y % 100 ≠ 0 ∨ y % 400 = 0)

instance (y : ℕ) : Decidable (IsLeap y) := inferInstanceAs (Decidable (_ ∧ _))

/-- The days of month `m` of the year `y`; there is none outside `1 .. 12`. -/
def daysInMonth (y : ℕ) : ℕ → ℕ
  | 1 => 31
  | 2 => if IsLeap y then 29 else 28
  | 3 => 31
  | 4 => 30
  | 5 => 31
  | 6 => 30
  | 7 => 31
  | 8 => 31
  | 9 => 30
  | 10 => 31
  | 11 => 30
  | 12 => 31
  | _ => 0

/-- The days of the year `y` before its month `m`. -/
def daysBeforeMonth (y : ℕ) : ℕ → ℕ
  | 0 => 0
  | m + 1 => daysBeforeMonth y m + daysInMonth y m

def daysInYear (y : ℕ) : ℕ := if IsLeap y then 366 else 365

/-- The days from the start of 1970 to the start of `1970 + n`. -/
def daysBeforeYear : ℕ → ℕ
  | 0 => 0
  | n + 1 => daysBeforeYear n + daysInYear (1970 + n)

theorem daysBeforeMonth_mono (y : ℕ) : Monotone (daysBeforeMonth y) :=
  monotone_nat_of_le_succ fun _ => Nat.le_add_right _ _

theorem daysBeforeYear_mono : Monotone daysBeforeYear :=
  monotone_nat_of_le_succ fun _ => Nat.le_add_right _ _

theorem daysBeforeMonth_thirteen (y : ℕ) :
    daysBeforeMonth y 13 = daysInYear y := by
  simp only [daysBeforeMonth, daysInMonth, daysInYear]
  split
  · rfl
  · rfl

theorem daysBeforeMonth_one (y : ℕ) : daysBeforeMonth y 1 = 0 := rfl

/-! ## Seconds -/

/-- A second of the Gregorian calendar, from 1970 on. -/
@[ext]
structure DateTime where
  year : ℕ
  month : ℕ
  day : ℕ
  hour : ℕ
  minute : ℕ
  second : ℕ
  year_ge : 1970 ≤ year
  month_pos : 1 ≤ month
  month_le : month ≤ 12
  day_pos : 1 ≤ day
  day_le : day ≤ daysInMonth year month
  hour_lt : hour < 24
  minute_lt : minute < 60
  second_lt : second < 60

namespace DateTime

/-- `1970-01-01T00:00:00Z` -/
def epoch : DateTime :=
  ⟨1970, 1, 1, 0, 0, 0, by decide, by decide, by decide, by decide, by decide,
    by decide, by decide, by decide⟩

theorem daysInMonth_pos {y m : ℕ} (h₁ : 1 ≤ m) (h₂ : m ≤ 12) :
    1 ≤ daysInMonth y m := by
  by_cases hfeb : m = 2
  · subst hfeb
    simp only [daysInMonth]
    split
    · decide
    · decide
  · interval_cases m
    all_goals first | exact absurd rfl hfeb | simp [daysInMonth]

/-- The second after. -/
def tick (t : DateTime) : DateTime :=
  if hs : t.second + 1 < 60 then
    { t with second := t.second + 1, second_lt := hs }
  else if hm : t.minute + 1 < 60 then
    { t with minute := t.minute + 1, second := 0, minute_lt := hm,
             second_lt := by decide }
  else if hh : t.hour + 1 < 24 then
    { t with hour := t.hour + 1, minute := 0, second := 0, hour_lt := hh,
             minute_lt := by decide, second_lt := by decide }
  else if hd : t.day + 1 ≤ daysInMonth t.year t.month then
    { t with day := t.day + 1, hour := 0, minute := 0, second := 0,
             day_pos := Nat.le_add_left 1 t.day, day_le := hd,
             hour_lt := by decide, minute_lt := by decide,
             second_lt := by decide }
  else if hM : t.month + 1 ≤ 12 then
    { t with month := t.month + 1, day := 1, hour := 0, minute := 0,
             second := 0, month_pos := Nat.le_add_left 1 t.month,
             month_le := hM, day_pos := le_rfl,
             day_le := daysInMonth_pos (Nat.le_add_left 1 t.month) hM,
             hour_lt := by decide, minute_lt := by decide,
             second_lt := by decide }
  else
    { year := t.year + 1, month := 1, day := 1, hour := 0, minute := 0,
      second := 0, year_ge := Nat.le_succ_of_le t.year_ge,
      month_pos := le_rfl, month_le := by decide, day_pos := le_rfl,
      day_le := daysInMonth_pos le_rfl (by decide), hour_lt := by decide,
      minute_lt := by decide, second_lt := by decide }

def dayNumber (t : DateTime) : ℕ :=
  daysBeforeYear (t.year - 1970) + daysBeforeMonth t.year t.month + t.day - 1

def unixSeconds (t : DateTime) : ℕ :=
  (t.dayNumber * 24 + t.hour) * 3600 + t.minute * 60 + t.second

@[simp] theorem unixSeconds_epoch : epoch.unixSeconds = 0 := rfl

theorem daysBeforeYear_succ_year (t : DateTime) :
    daysBeforeYear (t.year + 1 - 1970)
      = daysBeforeYear (t.year - 1970) + daysInYear t.year := by
  have hy := t.year_ge
  have hsucc : t.year + 1 - 1970 = t.year - 1970 + 1 := by omega
  have hyear : 1970 + (t.year - 1970) = t.year := by omega
  rw [hsucc, daysBeforeYear, hyear]

theorem unixSeconds_tick (t : DateTime) :
    t.tick.unixSeconds = t.unixSeconds + 1 := by
  have hpos := t.day_pos
  have hle := t.day_le
  have hh := t.hour_lt
  have hm := t.minute_lt
  have hs := t.second_lt
  unfold tick
  split
  · simp only [unixSeconds, dayNumber]
    omega
  · split
    · simp only [unixSeconds, dayNumber]
      omega
    · split
      · simp only [unixSeconds, dayNumber]
        omega
      · split
        · simp only [unixSeconds, dayNumber]
          omega
        · split
          -- the month ends
          · simp only [unixSeconds, dayNumber, daysBeforeMonth]
            omega
          -- the year ends
          · have hdec : t.month = 12 := by
              have := t.month_le
              omega
            have hyear := t.daysBeforeYear_succ_year
            have hmonths : daysBeforeMonth t.year 12 + daysInMonth t.year 12
                = daysInYear t.year := daysBeforeMonth_thirteen t.year
            have hlast : ¬ t.day + 1 ≤ daysInMonth t.year t.month := by
              assumption
            rw [hdec] at hle hlast
            simp only [unixSeconds, dayNumber, daysBeforeMonth_one, hyear, hdec]
            omega

theorem unixSeconds_iterate (n : ℕ) : (tick^[n] epoch).unixSeconds = n := by
  induction n with
  | zero => rfl
  | succ n ih => rw [Function.iterate_succ_apply', unixSeconds_tick, ih]

theorem month_end (t : DateTime) :
    t.dayNumber < daysBeforeYear (t.year - 1970) +
      daysBeforeMonth t.year (t.month + 1) := by
  have hpos := t.day_pos
  have hle := t.day_le
  simp only [dayNumber, daysBeforeMonth]
  omega

theorem year_end (t : DateTime) :
    t.dayNumber < daysBeforeYear (t.year + 1 - 1970) := by
  have hmonth := t.month_end
  have hmono : daysBeforeMonth t.year (t.month + 1) ≤ daysBeforeMonth t.year 13 :=
    daysBeforeMonth_mono t.year (Nat.succ_le_succ t.month_le)
  rw [daysBeforeMonth_thirteen] at hmono
  rw [daysBeforeYear_succ_year]
  omega

theorem daysBeforeYear_le (n : ℕ) : daysBeforeYear n ≤ 366 * n := by
  induction n with
  | zero => exact le_rfl
  | succ n ih =>
      have hyear : daysInYear (1970 + n) ≤ 366 := by
        unfold daysInYear
        split
        · exact le_rfl
        · decide
      rw [daysBeforeYear]
      omega

/-- Unix time of a year in four digits needs less than 63 bits. -/
theorem unixSeconds_lt_of_year (t : DateTime) (h : t.year ≤ 9999) :
    t.unixSeconds < 2 ^ 63 := by
  have hday := t.year_end
  have hyears : daysBeforeYear (t.year + 1 - 1970) ≤ 366 * 8030 :=
    (daysBeforeYear_mono (by omega)).trans (daysBeforeYear_le 8030)
  have hhour := t.hour_lt
  have hminute := t.minute_lt
  have hsecond := t.second_lt
  unfold unixSeconds
  omega

/-! ## Order -/

/-- The fields, from the year down. -/
def fields (t : DateTime) : List ℕ :=
  [t.year, t.month, t.day, t.hour, t.minute, t.second]

theorem fields_injective : Function.Injective fields := by
  intro a b h
  simp only [fields, List.cons.injEq, and_true] at h
  obtain ⟨h₁, h₂, h₃, h₄, h₅, h₆⟩ := h
  exact DateTime.ext h₁ h₂ h₃ h₄ h₅ h₆

/-- A date before in the calendar has the lower number. -/
theorem dayNumber_lt {a b : DateTime}
    (h : a.year < b.year ∨ a.year = b.year ∧
      (a.month < b.month ∨ a.month = b.month ∧ a.day < b.day)) :
    a.dayNumber < b.dayNumber := by
  have hbpos := b.day_pos
  rcases h with hy | ⟨hy, hm | ⟨hm, hd⟩⟩
  · have hmono : daysBeforeYear (a.year + 1 - 1970)
        ≤ daysBeforeYear (b.year - 1970) := daysBeforeYear_mono (by omega)
    have hend := a.year_end
    simp only [dayNumber] at hend ⊢
    omega
  · have hmono : daysBeforeMonth a.year (a.month + 1)
        ≤ daysBeforeMonth a.year b.month := daysBeforeMonth_mono a.year hm
    have hend := a.month_end
    simp only [dayNumber, ← hy] at hend ⊢
    omega
  · have hapos := a.day_pos
    simp only [dayNumber, ← hy, ← hm]
    omega

theorem unixSeconds_lt {a b : DateTime} (h : a.fields < b.fields) :
    a.unixSeconds < b.unixSeconds := by
  have hah := a.hour_lt
  have ham := a.minute_lt
  have has := a.second_lt
  simp only [fields, List.cons_lt_cons_iff, List.not_lt_nil, and_false,
    or_false] at h
  by_cases hday : a.dayNumber < b.dayNumber
  · simp only [unixSeconds]
    omega
  · have hno : ¬ (a.year < b.year ∨ a.year = b.year ∧ (a.month < b.month ∨
        a.month = b.month ∧ a.day < b.day)) := fun h => hday (dayNumber_lt h)
    -- the dates agree, and the times differ
    have hdate : a.year = b.year ∧ a.month = b.month ∧ a.day = b.day ∧
        (a.hour < b.hour ∨ a.hour = b.hour ∧ (a.minute < b.minute ∨
          a.minute = b.minute ∧ a.second < b.second)) := by
      omega
    obtain ⟨hy, hm, hd, htime⟩ := hdate
    have hsame : a.dayNumber = b.dayNumber := by
      simp only [dayNumber, hy, hm, hd]
    simp only [unixSeconds, hsame]
    omega

/-- **The order of Unix times is the order of the fields.** -/
theorem unixSeconds_lt_iff (a b : DateTime) :
    a.unixSeconds < b.unixSeconds ↔ a.fields < b.fields := by
  refine ⟨?_, unixSeconds_lt⟩
  intro h
  rcases lt_trichotomy a.fields b.fields with hlt | heq | hgt
  · exact hlt
  · rw [fields_injective heq] at h
    exact absurd h (lt_irrefl _)
  · exact absurd (unixSeconds_lt hgt) (lt_asymm h)

theorem unixSeconds_injective : Function.Injective unixSeconds := by
  intro a b h
  rcases lt_trichotomy a.fields b.fields with hlt | heq | hgt
  · exact absurd h (unixSeconds_lt hlt).ne
  · exact fields_injective heq
  · exact absurd h (unixSeconds_lt hgt).ne'

/-- **Counting ticks from the epoch gives the closed form.** -/
theorem tick_iterate_eq_iff (n : ℕ) (t : DateTime) :
    tick^[n] epoch = t ↔ t.unixSeconds = n := by
  constructor
  · rintro rfl
    exact unixSeconds_iterate n
  · intro h
    apply unixSeconds_injective
    rw [unixSeconds_iterate, h]

/-! ## Notation -/

/-- A number below 100 in two digits. -/
def dec2 (n : ℕ) : List UInt8 :=
  [UInt8.ofNat (48 + n / 10), UInt8.ofNat (48 + n % 10)]

/-- `YYYY-MM-DDThh:mm:ssZ`, the year in two halves. -/
def dateLayout (century year month day hour minute second : ℕ) : List UInt8 :=
  dec2 century ++ (dec2 year ++ minus :: (dec2 month ++ minus ::
    (dec2 day ++ 84 :: (dec2 hour ++ colon :: (dec2 minute ++ colon ::
      (dec2 second ++ [90]))))))

/-- The notation of a time. -/
def iso (t : DateTime) : List UInt8 :=
  dateLayout (t.year / 100) (t.year % 100) t.month t.day t.hour t.minute
    t.second

/-- The string denotes the time: a year has four digits. -/
def Denotes (date : List UInt8) (t : DateTime) : Prop :=
  t.year ≤ 9999 ∧ date = t.iso

theorem digit_toNat {n : ℕ} (h : n < 10) :
    (UInt8.ofNat (48 + n)).toNat = 48 + n := by
  rw [UInt8.toNat_ofNat']
  omega

theorem dec2_append_lt_iff {a b : ℕ} (ha : a < 100) (hb : b < 100)
    (s t : List UInt8) :
    dec2 a ++ s < dec2 b ++ t ↔ a < b ∨ a = b ∧ s < t := by
  have ha₁ := digit_toNat (n := a / 10) (by omega)
  have ha₂ := digit_toNat (n := a % 10) (by omega)
  have hb₁ := digit_toNat (n := b / 10) (by omega)
  have hb₂ := digit_toNat (n := b % 10) (by omega)
  simp only [dec2, List.cons_append, List.nil_append, List.cons_lt_cons_iff,
    UInt8.lt_iff_toNat_lt, ← UInt8.toNat_inj, ha₁, ha₂, hb₁, hb₂]
  by_cases hst : s < t
  · simp only [hst, and_true]
    omega
  · simp only [hst, and_false, or_false]
    omega

/-- A year is ordered as its two halves. -/
theorem halves_lt_iff (a b : ℕ) (p : Prop) :
    (a / 100 < b / 100 ∨ a / 100 = b / 100 ∧
      (a % 100 < b % 100 ∨ a % 100 = b % 100 ∧ p)) ↔ a < b ∨ a = b ∧ p := by
  by_cases hp : p
  · simp only [hp, and_true]
    omega
  · simp only [hp, and_false, or_false]
    omega

theorem cons_lt_cons_same (c : UInt8) (s t : List UInt8) :
    c :: s < c :: t ↔ s < t := by
  simp

theorem daysInMonth_le (y m : ℕ) : daysInMonth y m ≤ 31 := by
  unfold daysInMonth
  split
  all_goals first | omega | (split <;> omega)

/-- Every part of a date but the year has two digits. -/
theorem parts_lt (t : DateTime) : t.month < 100 ∧ t.day < 100 ∧ t.hour < 100 ∧
    t.minute < 100 ∧ t.second < 100 := by
  have hmonth := t.month_le
  have hday := t.day_le.trans (daysInMonth_le t.year t.month)
  have hhour := t.hour_lt
  have hminute := t.minute_lt
  have hsecond := t.second_lt
  omega

/-- **The strings are ordered as the times.** -/
theorem iso_lt_iff {t u : DateTime} (ht : t.year ≤ 9999) (hu : u.year ≤ 9999) :
    t.iso < u.iso ↔ t.fields < u.fields := by
  obtain ⟨ht₁, ht₂, ht₃, ht₄, ht₅⟩ := t.parts_lt
  obtain ⟨hu₁, hu₂, hu₃, hu₄, hu₅⟩ := u.parts_lt
  unfold iso dateLayout
  rw [dec2_append_lt_iff (by omega) (by omega),
    dec2_append_lt_iff (by omega) (by omega), cons_lt_cons_same,
    dec2_append_lt_iff ht₁ hu₁, cons_lt_cons_same, dec2_append_lt_iff ht₂ hu₂,
    cons_lt_cons_same, dec2_append_lt_iff ht₃ hu₃, cons_lt_cons_same,
    dec2_append_lt_iff ht₄ hu₄, cons_lt_cons_same, dec2_append_lt_iff ht₅ hu₅]
  rw [halves_lt_iff]
  simp [fields, List.cons_lt_cons_iff]

end DateTime

end Nawam
