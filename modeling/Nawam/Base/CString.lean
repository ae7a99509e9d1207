import Mathlib.Data.List.TakeWhile
import Nawam.Base.Ensures
import Nawam.Base.Numeral

/-!
# NUL-terminated strings in a buffer

A tokenizer that works in place scans for a separator, overwrites it with NUL
and hands out the offset of what stood before it. `scanFrom` is such a scan,
`cstrAt` is what a later `strcmp` or `strtoul` sees at an offset. The lemmas
are stated over a buffer split at the cursor, `pre ++ rest`: every step of a
tokenizer moves bytes from `rest` to `pre` and writes at the seam only.
-/

namespace Nawam

/-- `for (; !stop(p[i]); i++);` -/
def scanFrom (stop : UInt8 → Bool) (mem : List UInt8) (i : ℕ) : C ℕ :=
  match (mem.drop i).findIdx? stop with
  | some k => .ok (i + k)
  | none => .error .outOfBounds

def cstrAt (mem : List UInt8) (i : ℕ) : C (List UInt8) :=
  if Ascii.nul ∈ mem.drop i then .ok ((mem.drop i).takeWhile (· ≠ Ascii.nul))
  else .error .outOfBounds

theorem findIdx?_append_cons {stop : UInt8 → Bool} :
    ∀ {w : List UInt8} {c : UInt8} (post : List UInt8),
      (∀ b ∈ w, stop b = false) → stop c = true →
      (w ++ c :: post).findIdx? stop = some w.length
  | [], c, post, _, hc => by simp [List.findIdx?_cons, hc]
  | b :: w, c, post, hw, hc => by
      have hb := hw b List.mem_cons_self
      have ih := findIdx?_append_cons post
        (fun x hx => hw x (List.mem_cons_of_mem b hx)) hc
      simp [List.findIdx?_cons, hb, ih]

/-- A scan passes over `w` and stops at the first byte that stops it. -/
theorem scanFrom_append {stop : UInt8 → Bool} {pre w post : List UInt8}
    {c : UInt8} (hw : ∀ b ∈ w, stop b = false) (hc : stop c = true) :
    scanFrom stop (pre ++ (w ++ c :: post)) pre.length
      = .ok (pre.length + w.length) := by
  simp [scanFrom, findIdx?_append_cons post hw hc]

theorem cstrAt_append {pre w post : List UInt8} (hw : Ascii.nul ∉ w) :
    cstrAt (pre ++ (w ++ Ascii.nul :: post)) pre.length = .ok w := by
  have htake : (w ++ Ascii.nul :: post).takeWhile (· ≠ Ascii.nul) = w := by
    rw [List.takeWhile_append_of_pos]
    · simp
    · intro b hb
      simp only [ne_eq, decide_not, Bool.not_eq_eq_eq_not, Bool.not_true,
        decide_eq_false_iff_not]
      rintro rfl
      exact hw hb
  simp only [cstrAt, List.drop_left]
  rw [if_pos (by simp), htake]

/-- A scan stops at the first byte at or behind `i` that stops it. -/
theorem scanFrom_ensures (stop : UInt8 → Bool) (mem : List UInt8) (i : ℕ) :
    Ensures (scanFrom stop mem i) fun k => i ≤ k ∧
      (∃ c, mem[k]? = some c ∧ stop c = true) ∧
      (mem.drop i).dropWhile (!stop ·) = mem.drop k := by
  intro k hk
  unfold scanFrom at hk
  split at hk
  case h_1 j hj =>
      cases hk
      obtain ⟨hlt, hidx⟩ := List.findIdx?_eq_some_iff_findIdx_eq.mp hj
      have hstop : stop (mem.drop i)[j] = true := by
        subst hidx
        exact List.findIdx_getElem
      refine ⟨Nat.le_add_right i j, ⟨_, ?_, hstop⟩, ?_⟩
      · rw [← List.getElem?_drop]
        exact List.getElem?_eq_getElem hlt
      · rw [List.dropWhile_eq_drop_findIdx_not]
        simp only [Bool.not_not]
        rw [hidx, List.drop_drop]
  case h_2 => cases hk

/-! ## What a tokenizer leaves behind -/

/-- Some separators at or behind `start` have become NULs, and the rest is as
it was. -/
structure Tokenized (sep : UInt8 → Bool) (start : ℕ) (mem mem' : List UInt8) :
    Prop where
  length : mem'.length = mem.length
  bytes : ∀ j, mem'[j]? = mem[j]? ∨
    start ≤ j ∧ (∃ c, mem[j]? = some c ∧ sep c = true ∧ c ≠ Ascii.nul) ∧
      mem'[j]? = some Ascii.nul

namespace Tokenized

variable {sep : UInt8 → Bool} {start : ℕ} {mem mem' mem'' : List UInt8}

theorem refl (sep : UInt8 → Bool) (start : ℕ) (mem : List UInt8) :
    Tokenized sep start mem mem :=
  ⟨rfl, fun _ => .inl rfl⟩

/-- What has become a NUL is none of the separators any more. -/
theorem trans (h : Tokenized sep start mem mem')
    (h' : Tokenized sep start mem' mem'') : Tokenized sep start mem mem'' := by
  refine ⟨h'.length.trans h.length, fun j => ?_⟩
  rcases h'.bytes j with hsame | ⟨hstart, ⟨c, hc, hsep, hne⟩, hnul⟩
  · rw [hsame]
    exact h.bytes j
  · rcases h.bytes j with hsame | ⟨-, -, hcut⟩
    · exact .inr ⟨hstart, ⟨c, hsame ▸ hc, hsep, hne⟩, hnul⟩
    · rw [hc] at hcut
      cases hcut
      exact absurd rfl hne

theorem nul_stays (h : Tokenized sep start mem mem') {j : ℕ}
    (hj : mem[j]? = some Ascii.nul) : mem'[j]? = some Ascii.nul := by
  rcases h.bytes j with hsame | ⟨-, -, hnul⟩
  · rw [hsame, hj]
  · exact hnul

theorem store {i : ℕ} {c : UInt8} (hstart : start ≤ i) (hc : mem[i]? = some c)
    (hsep : sep c = true) : Tokenized sep start mem (mem.set i Ascii.nul) := by
  refine ⟨List.length_set, fun j => ?_⟩
  obtain ⟨hi, hget⟩ := List.getElem?_eq_some_iff.mp hc
  by_cases hij : i = j
  · subst hij
    rw [List.getElem?_set_self hi]
    by_cases hnul : c = Ascii.nul
    · exact .inl (by rw [hc, hnul])
    · exact .inr ⟨hstart, ⟨c, hc, hsep, hnul⟩, rfl⟩
  · exact .inl (List.getElem?_set_ne hij)

end Tokenized

/-! ## Characters, `strtoul` and `atoi` -/

/-- `tolower` -/
def asciiLower (c : UInt8) : UInt8 := if 65 ≤ c ∧ c ≤ 90 then c + 32 else c

def isSpace (c : UInt8) : Bool := c = 32 || (9 ≤ c && c ≤ 13)

/-- The optional sign of a `strto*` subject: whether it is a minus, and what
follows it. -/
def signOf : List UInt8 → Bool × List UInt8
  | 43 :: s => (false, s)
  | 45 :: s => (true, s)
  | s => (false, s)

/-- The optional `0x` of a hexadecimal `strto*` subject, which counts only
when a hexadecimal digit follows. -/
def skipHexMark : List UInt8 → List UInt8
  | 48 :: x :: c :: s =>
      if (x = 120 ∨ x = 88) ∧ isDigitOf 16 c then c :: s else 48 :: x :: c :: s
  | s => s

/-- Value of the longest digit prefix. -/
def leadingNumeral (base : ℕ) (s : List UInt8) : ℕ :=
  (numeralFrom base 0 (s.takeWhile (isDigitOf base))).getD 0

/-- `strtoul(s, NULL, base)` with the 32-bit `unsigned long` of Windows:
saturates at `ULONG_MAX`, and a minus sign negates modulo `2 ^ 32`. -/
def strtoul (base : ℕ) (s : List UInt8) : ℕ :=
  let (neg, s) := signOf (s.dropWhile isSpace)
  let v := leadingNumeral base (if base = 16 then skipHexMark s else s)
  if 2 ^ 32 ≤ v then 2 ^ 32 - 1
  else if neg then (2 ^ 32 - v) % 2 ^ 32 else v

/-- `atoi(s)`, saturating at the ends of `int`. -/
def atoi (s : List UInt8) : ℤ :=
  let (neg, s) := signOf (s.dropWhile isSpace)
  let v := leadingNumeral 10 s
  if neg then max (-(v : ℤ)) (-2 ^ 31) else min v (2 ^ 31 - 1)

theorem leadingNumeral_eq {base v : ℕ} {s : List UInt8}
    (h : numeralFrom base 0 s = some v) : leadingNumeral base s = v := by
  have hall : s.takeWhile (isDigitOf base) = s :=
    List.takeWhile_eq_self_iff.mpr (isDigitOf_of_numeralFrom h)
  simp [leadingNumeral, hall, h]

theorem not_space_of_digit : ∀ c : UInt8, (digitValue c).isSome = true →
    isSpace c = false ∧ c ≠ 43 ∧ c ≠ 45 :=
  forall_byte (by decide +kernel)

theorem not_space_of_isDigitOf {base : ℕ} {c : UInt8} (hc : isDigitOf base c = true) :
    isSpace c = false ∧ c ≠ 43 ∧ c ≠ 45 := by
  refine not_space_of_digit c ?_
  unfold isDigitOf at hc
  cases hd : digitValue c with
  | none => simp [hd] at hc
  | some d => rfl

theorem signOf_cons_of_digit {base : ℕ} {c : UInt8} {s : List UInt8}
    (hc : isDigitOf base c = true) : signOf (c :: s) = (false, c :: s) := by
  obtain ⟨-, hplus, hminus⟩ := not_space_of_isDigitOf hc
  unfold signOf
  split
  · rename_i heq
    exact absurd (List.cons.inj heq).1 hplus
  · rename_i heq
    exact absurd (List.cons.inj heq).1 hminus
  · rfl

/-- A digit is neither white space nor a sign, so a subject that starts with
one is read from its first byte. -/
theorem signOf_dropWhile_of_digit {base : ℕ} {c : UInt8} {s : List UInt8}
    (hc : isDigitOf base c = true) :
    signOf ((c :: s).dropWhile isSpace) = (false, c :: s) := by
  have hdrop : (c :: s).dropWhile isSpace = c :: s := by
    simp [(not_space_of_isDigitOf hc).1]
  rw [hdrop, signOf_cons_of_digit hc]

theorem isDigitOf_head_of_numeral {base v : ℕ} {c : UInt8} {s : List UInt8}
    (h : numeralFrom base 0 (c :: s) = some v) : isDigitOf base c = true :=
  isDigitOf_of_numeralFrom h c List.mem_cons_self

/-- `strtoul` reads a decimal numeral that fits 32 bits as its value. -/
theorem strtoul_decimal {s : List UInt8} {v : ℕ} (h : Numeral 10 s v)
    (hv : v < 2 ^ 32) : strtoul 10 s = v := by
  obtain ⟨hne, hval⟩ := h
  cases s with
  | nil => exact absurd rfl hne
  | cons c s =>
      simp only [strtoul]
      rw [signOf_dropWhile_of_digit (isDigitOf_head_of_numeral hval)]
      simp only [Nat.reduceEqDiff, if_false, leadingNumeral_eq hval]
      rw [if_neg (by omega)]
      simp

/-- `strtoul` in base 16 reads `0x` and the digits after it. -/
theorem strtoul_hex {s : List UInt8} {v : ℕ} (h : Numeral 16 s v)
    (hv : v < 2 ^ 32) : strtoul 16 (48 :: 120 :: s) = v := by
  obtain ⟨hne, hval⟩ := h
  cases s with
  | nil => exact absurd rfl hne
  | cons c s =>
      have hc := isDigitOf_head_of_numeral hval
      simp only [strtoul]
      have hzero : isDigitOf 16 48 = true := by decide
      rw [signOf_dropWhile_of_digit hzero]
      simp only [skipHexMark, hc, if_true, true_or, and_self,
        leadingNumeral_eq hval]
      rw [if_neg (by omega)]
      simp

/-- `atoi` reads a decimal numeral below `2 ^ 31` as its value. -/
theorem atoi_decimal {s : List UInt8} {v : ℕ} (h : Numeral 10 s v)
    (hv : v < 2 ^ 31) : atoi s = v := by
  obtain ⟨hne, hval⟩ := h
  cases s with
  | nil => exact absurd rfl hne
  | cons c s =>
      simp only [atoi]
      rw [signOf_dropWhile_of_digit (isDigitOf_head_of_numeral hval)]
      simp only [leadingNumeral_eq hval]
      have hmin : min (v : ℤ) (2 ^ 31 - 1) = v := min_eq_left (by omega)
      simpa using hmin

end Nawam
