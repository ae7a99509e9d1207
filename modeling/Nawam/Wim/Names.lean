import Nawam.Wim.Encoding

/-!
# Windows names and UNIX names

The two codes of the conversion, and what becomes of a name that is converted and
converted back.
-/

namespace Nawam.Wim

/-! ## Fields of bits -/

theorem and_mask (n k : ℕ) : n &&& (2 ^ k - 1) = n % 2 ^ k := Nat.and_two_pow_sub_one_eq_mod n k

theorem shiftLeft_or (a k : ℕ) {b : ℕ} (h : b < 2 ^ k) : a <<< k ||| b = a * 2 ^ k + b := by
  rw [← Nat.shiftLeft_add_eq_or_of_lt h, Nat.shiftLeft_eq]

theorem two_fields (a b : ℕ) :
    (a &&& 0x1F) <<< 6 ||| (b &&& 0x3F) = a % 32 * 64 + b % 64 := by
  rw [show (0x1F : ℕ) = 2 ^ 5 - 1 from rfl, show (0x3F : ℕ) = 2 ^ 6 - 1 from rfl, and_mask,
    and_mask, shiftLeft_or _ 6 (Nat.mod_lt _ (by decide))]
  rfl

theorem three_fields (a b c : ℕ) :
    (a &&& 0x0F) <<< 12 ||| (b &&& 0x3F) <<< 6 ||| (c &&& 0x3F) =
      a % 16 * 4096 + b % 64 * 64 + c % 64 := by
  have hbc : (b % 2 ^ 6) <<< 6 ||| c % 2 ^ 6 = b % 64 * 64 + c % 64 := by
    rw [shiftLeft_or _ 6 (Nat.mod_lt _ (by decide))]
    rfl
  rw [show (0x0F : ℕ) = 2 ^ 4 - 1 from rfl, show (0x3F : ℕ) = 2 ^ 6 - 1 from rfl, and_mask,
    and_mask, and_mask, Nat.or_assoc, hbc, shiftLeft_or _ 12 (by omega)]
  omega

theorem four_fields (a b c d : ℕ) :
    (a &&& 0x07) <<< 18 ||| (b &&& 0x3F) <<< 12 ||| (c &&& 0x3F) <<< 6 ||| (d &&& 0x3F) =
      a % 8 * 262144 + b % 64 * 4096 + c % 64 * 64 + d % 64 := by
  have hcd : (c % 2 ^ 6) <<< 6 ||| d % 2 ^ 6 = c % 64 * 64 + d % 64 := by
    rw [shiftLeft_or _ 6 (Nat.mod_lt _ (by decide))]
    rfl
  have hbcd : (b % 2 ^ 6) <<< 12 ||| (c % 64 * 64 + d % 64) =
      b % 64 * 4096 + c % 64 * 64 + d % 64 := by
    rw [shiftLeft_or _ 12 (by omega)]
    omega
  rw [show (0x07 : ℕ) = 2 ^ 3 - 1 from rfl, show (0x3F : ℕ) = 2 ^ 6 - 1 from rfl, and_mask,
    and_mask, and_mask, and_mask, Nat.or_assoc, Nat.or_assoc, hcd, hbcd,
    shiftLeft_or _ 18 (by omega)]
  omega

/-- A mark above one field of `k` bits -/
theorem mark_or {mark a k : ℕ} (n : ℕ) (hmark : mark = n * 2 ^ k) (h : a < 2 ^ k) :
    mark ||| a = mark + a := by
  rw [hmark, ← shiftLeft_or n k h, Nat.shiftLeft_eq]

theorem utf8EncodeCodepoint_eq {c : ℕ} (h : c ≤ 0x10FFFF) : utf8EncodeCodepoint c =
    if c < 0x80 then [.ofNat c]
    else if c < 0x800 then [.ofNat (0xC0 + c / 64), .ofNat (0x80 + c % 64)]
    else if c < 0x10000 then
      [.ofNat (0xE0 + c / 4096), .ofNat (0x80 + c / 64 % 64), .ofNat (0x80 + c % 64)]
    else
      [.ofNat (0xF0 + c / 262144), .ofNat (0x80 + c / 4096 % 64), .ofNat (0x80 + c / 64 % 64),
        .ofNat (0x80 + c % 64)] := by
  have htail : ∀ n : ℕ, 0x80 ||| (n &&& 0x3F) = 0x80 + n % 64 := by
    intro n
    rw [show (0x3F : ℕ) = 2 ^ 6 - 1 from rfl, and_mask]
    exact mark_or (k := 6) 2 rfl (Nat.mod_lt _ (by decide))
  have hshift : ∀ n k : ℕ, n >>> k = n / 2 ^ k := Nat.shiftRight_eq_div_pow
  rw [utf8EncodeCodepoint]
  split_ifs with h1 h2 h3
  · rfl
  · have hlead : 0xC0 ||| c / 2 ^ 6 = 0xC0 + c / 2 ^ 6 := mark_or (k := 5) 6 rfl (by omega)
    rw [htail, hshift, hlead]
    rfl
  · have hlead : 0xE0 ||| c / 2 ^ 12 = 0xE0 + c / 2 ^ 12 := mark_or (k := 4) 14 rfl (by omega)
    rw [htail, htail, hshift, hshift, hlead]
    rfl
  · have hlead : 0xF0 ||| c / 2 ^ 18 = 0xF0 + c / 2 ^ 18 := mark_or (k := 3) 30 rfl (by omega)
    rw [htail, htail, htail, hshift, hshift, hshift, hlead]
    rfl

theorem isUtf8Tail_iff : ∀ b : UInt8, isUtf8Tail b = true ↔ 0x80 ≤ b.toNat ∧ b.toNat < 0xC0 := by
  apply forall_byte
  decide +kernel

theorem toNat_byte {n : ℕ} (h : n < 256) : (UInt8.ofNat n).toNat = n := by
  rw [UInt8.toNat_ofNat', Nat.mod_eq_of_lt h]

theorem ofNat_eq {n : ℕ} {b : UInt8} (h : n = b.toNat) : UInt8.ofNat n = b := by
  rw [h, UInt8.ofNat_toNat]

/-! ## WTF-8 -/

/-- UTF-8 of any codepoint, also of a surrogate -/
def wtf8 : Code UInt8 ℕ where
  word := utf8EncodeCodepoint
  Valid c := c ≤ 0x10FFFF
  Before _ _ := True

section Decode

variable {s rest : List UInt8} {p : ℕ} {b0 b1 b2 b3 : UInt8}

theorem utf8Tails_eq (s : List UInt8) : ∀ n p : ℕ, p + n ≤ s.length →
    utf8Tails s n p = .ok (((s.drop p).take n).all isUtf8Tail)
  | 0, p, _ => rfl
  | n + 1, p, h => by
      have hlt : p < s.length := by omega
      rw [utf8Tails, load_of_lt hlt, C.ok_bind, List.drop_eq_getElem_cons hlt,
        List.take_succ_cons, List.all_cons]
      cases htail : isUtf8Tail s[p] with
      | true => rw [if_pos rfl, utf8Tails_eq s n (p + 1) (by omega), Bool.true_and]
      | false => rfl

/-- Nothing is read behind the end of the string, because `front` looks first at what
remains. -/
theorem utf8Validate_eq {validate front : Bool} {n p : ℕ} (h : front = true → p + n ≤ s.length) :
    utf8Validate validate front s n p =
      .ok (!validate || (front && ((s.drop p).take n).all isUtf8Tail)) := by
  cases validate with
  | false => rfl
  | true =>
      cases front with
      | false => rfl
      | true => exact utf8Tails_eq s n p (h rfl)

/-- How the bytes are told apart that a codepoint begins with -/
theorem lead_lt_iff (b : UInt8) : (b < 0x80 ↔ b.toNat < 0x80) ∧ (b < 0xE0 ↔ b.toNat < 0xE0) ∧
    (b < 0xF0 ↔ b.toNat < 0xF0) ∧ (b < 0xF8 ↔ b.toNat < 0xF8) ∧ (0xC2 ≤ b ↔ 0xC2 ≤ b.toNat) :=
  ⟨UInt8.lt_iff_toNat_lt, UInt8.lt_iff_toNat_lt, UInt8.lt_iff_toNat_lt, UInt8.lt_iff_toNat_lt,
    UInt8.le_iff_toNat_le⟩

theorem length_sub_of_drop {s xs : List UInt8} {p : ℕ} (h : s.drop p = xs) :
    s.length - p = xs.length := by
  rw [← h, List.length_drop]

theorem utf8Decode_one (validate : Bool) (h : s.drop p = b0 :: rest) (h0 : b0.toNat < 0x80) :
    utf8DecodeCodepoint s p (s.length - p) validate = .ok (1, b0.toNat) := by
  obtain ⟨-, hload, -⟩ := load_of_drop h
  rw [utf8DecodeCodepoint, hload, C.ok_bind, if_pos ((lead_lt_iff b0).1.mpr h0)]
  rfl

theorem utf8Decode_two (validate : Bool) (h : s.drop p = b0 :: b1 :: rest)
    (h0 : 0xC2 ≤ b0.toNat) (h0' : b0.toNat < 0xE0) (h1 : isUtf8Tail b1 = true) :
    utf8DecodeCodepoint s p (s.length - p) validate =
      .ok (2, b0.toNat % 32 * 64 + b1.toNat % 64) := by
  obtain ⟨hlt80, hltE0, hltF0, hltF8, hleC2⟩ := lead_lt_iff b0
  have hlength := length_sub_of_drop h
  rw [List.length_cons, List.length_cons] at hlength
  obtain ⟨-, hload0, h'⟩ := load_of_drop h
  obtain ⟨-, hload1, -⟩ := load_of_drop h'
  have hfront : (decide (0xC2 ≤ b0) && decide (2 ≤ s.length - p)) = true := by
    rw [decide_eq_true (hleC2.mpr h0), decide_eq_true (show 2 ≤ s.length - p by omega)]
    rfl
  rw [utf8DecodeCodepoint, hload0, C.ok_bind, if_neg (by rw [hlt80]; omega),
    if_pos (hltE0.mpr h0'), utf8Validate_eq (fun _ => by omega), C.ok_bind, hfront, h',
    List.take_succ_cons, List.take_zero, List.all_cons, h1, List.all_nil,
    if_pos (by cases validate <;> rfl), hload1, C.ok_bind, two_fields]
  rfl

theorem utf8Decode_three (validate : Bool) (h : s.drop p = b0 :: b1 :: b2 :: rest)
    (h0 : 0xE0 ≤ b0.toNat) (h0' : b0.toNat < 0xF0) (h1 : isUtf8Tail b1 = true)
    (h2 : isUtf8Tail b2 = true) :
    utf8DecodeCodepoint s p (s.length - p) validate =
      let c := b0.toNat % 16 * 4096 + b1.toNat % 64 * 64 + b2.toNat % 64
      if validate && !decide (0x800 ≤ c) then .ok (1, invalidCodepoint) else .ok (3, c) := by
  obtain ⟨hlt80, hltE0, hltF0, hltF8, hleC2⟩ := lead_lt_iff b0
  have hlength := length_sub_of_drop h
  rw [List.length_cons, List.length_cons, List.length_cons] at hlength
  obtain ⟨-, hload0, h'⟩ := load_of_drop h
  obtain ⟨-, hload1, h''⟩ := load_of_drop h'
  obtain ⟨-, hload2, -⟩ := load_of_drop h''
  have hfront : decide (3 ≤ s.length - p) = true := decide_eq_true (by omega)
  rw [utf8DecodeCodepoint, hload0, C.ok_bind, if_neg (by rw [hlt80]; omega),
    if_neg (by rw [hltE0]; omega), if_pos (hltF0.mpr h0'),
    utf8Validate_eq (fun _ => by omega), C.ok_bind, hfront, h', List.take_succ_cons,
    List.take_succ_cons, List.take_zero, List.all_cons, List.all_cons, h1, h2, List.all_nil,
    if_pos (by cases validate <;> rfl), hload1, C.ok_bind, hload2, C.ok_bind, three_fields]
  rfl

theorem utf8Decode_four (validate : Bool) (h : s.drop p = b0 :: b1 :: b2 :: b3 :: rest)
    (h0 : 0xF0 ≤ b0.toNat) (h0' : b0.toNat < 0xF8) (h1 : isUtf8Tail b1 = true)
    (h2 : isUtf8Tail b2 = true) (h3 : isUtf8Tail b3 = true) :
    utf8DecodeCodepoint s p (s.length - p) validate =
      let c := b0.toNat % 8 * 262144 + b1.toNat % 64 * 4096 + b2.toNat % 64 * 64 + b3.toNat % 64
      if validate && !(decide (0x10000 ≤ c) && decide (c ≤ 0x10FFFF)) then
        .ok (1, invalidCodepoint)
      else .ok (4, c) := by
  obtain ⟨hlt80, hltE0, hltF0, hltF8, hleC2⟩ := lead_lt_iff b0
  have hlength := length_sub_of_drop h
  rw [List.length_cons, List.length_cons, List.length_cons, List.length_cons] at hlength
  obtain ⟨-, hload0, h'⟩ := load_of_drop h
  obtain ⟨-, hload1, h''⟩ := load_of_drop h'
  obtain ⟨-, hload2, h'''⟩ := load_of_drop h''
  obtain ⟨-, hload3, -⟩ := load_of_drop h'''
  have hfront : (decide (b0 < 0xF8) && decide (4 ≤ s.length - p)) = true := by
    rw [decide_eq_true (hltF8.mpr h0'), decide_eq_true (show 4 ≤ s.length - p by omega)]
    rfl
  rw [utf8DecodeCodepoint, hload0, C.ok_bind, if_neg (by rw [hlt80]; omega),
    if_neg (by rw [hltE0]; omega), if_neg (by rw [hltF0]; omega),
    utf8Validate_eq (fun _ => by omega), C.ok_bind, hfront, h', List.take_succ_cons,
    List.take_succ_cons, List.take_succ_cons, List.take_zero, List.all_cons, List.all_cons,
    List.all_cons, h1, h2, h3, List.all_nil, if_pos (by cases validate <;> rfl), hload1,
    C.ok_bind, hload2, C.ok_bind, hload3, C.ok_bind, four_fields]
  rfl

theorem utf8_reads {c : ℕ} (validate : Bool) (h : wtf8.Begins (s.drop p) c rest) :
    utf8DecodeCodepoint s p (s.length - p) validate = .ok ((wtf8.word c).length, c) := by
  obtain ⟨hword, hvalid, -⟩ := h
  change c ≤ 0x10FFFF at hvalid
  change s.drop p = utf8EncodeCodepoint c ++ rest at hword
  change _ = Except.ok ((utf8EncodeCodepoint c).length, c)
  rw [utf8EncodeCodepoint_eq hvalid] at hword ⊢
  split_ifs at hword ⊢ with h1 h2 h3
  · have h0 := toNat_byte (show c < 256 by omega)
    rw [utf8Decode_one validate hword (by omega), h0]
    rfl
  · have h0 := toNat_byte (show 0xC0 + c / 64 < 256 by omega)
    have h1 := toNat_byte (show 0x80 + c % 64 < 256 by omega)
    rw [utf8Decode_two validate hword (by omega) (by omega) ((isUtf8Tail_iff _).mpr (by omega)),
      h0, h1, show (0xC0 + c / 64) % 32 * 64 + (0x80 + c % 64) % 64 = c by omega]
    rfl
  · have h0 := toNat_byte (show 0xE0 + c / 4096 < 256 by omega)
    have h1 := toNat_byte (show 0x80 + c / 64 % 64 < 256 by omega)
    have h2 := toNat_byte (show 0x80 + c % 64 < 256 by omega)
    rw [utf8Decode_three validate hword (by omega) (by omega)
      ((isUtf8Tail_iff _).mpr (by omega)) ((isUtf8Tail_iff _).mpr (by omega)), h0, h1, h2,
      show (0xE0 + c / 4096) % 16 * 4096 + (0x80 + c / 64 % 64) % 64 * 64 +
        (0x80 + c % 64) % 64 = c by omega]
    dsimp only
    rw [decide_eq_true (show 0x800 ≤ c by omega), if_neg (by cases validate <;> decide)]
    rfl
  · have h0 := toNat_byte (show 0xF0 + c / 262144 < 256 by omega)
    have h1 := toNat_byte (show 0x80 + c / 4096 % 64 < 256 by omega)
    have h2 := toNat_byte (show 0x80 + c / 64 % 64 < 256 by omega)
    have h3 := toNat_byte (show 0x80 + c % 64 < 256 by omega)
    rw [utf8Decode_four validate hword (by omega) (by omega)
      ((isUtf8Tail_iff _).mpr (by omega)) ((isUtf8Tail_iff _).mpr (by omega))
      ((isUtf8Tail_iff _).mpr (by omega)), h0, h1, h2, h3,
      show (0xF0 + c / 262144) % 8 * 262144 + (0x80 + c / 4096 % 64) % 64 * 4096 +
        (0x80 + c / 64 % 64) % 64 * 64 + (0x80 + c % 64) % 64 = c by omega]
    dsimp only
    rw [decide_eq_true (show 0x10000 ≤ c by omega), decide_eq_true hvalid,
      if_neg (by cases validate <;> decide)]
    rfl

/-- The bytes that passed as the tail of a codepoint -/
theorem exists_tails {xs : List UInt8} {n : ℕ} (hlength : n ≤ xs.length)
    (hall : (xs.take n).all isUtf8Tail = true) :
    ∃ tails rest, xs = tails ++ rest ∧ tails.length = n ∧ ∀ b ∈ tails, isUtf8Tail b = true :=
  ⟨xs.take n, xs.drop n, (List.take_append_drop n xs).symm, List.length_take_of_le hlength,
    List.all_eq_true.mp hall⟩

theorem utf8_begins_one (h : s.drop p = b0 :: rest) (h0 : b0.toNat < 0x80) :
    wtf8.Begins (s.drop p) b0.toNat rest := by
  have hvalid : b0.toNat ≤ 0x10FFFF := by omega
  refine ⟨?_, hvalid, trivial⟩
  change s.drop p = utf8EncodeCodepoint b0.toNat ++ rest
  rw [utf8EncodeCodepoint_eq hvalid, if_pos h0, UInt8.ofNat_toNat]
  exact h

theorem utf8_begins_two (h : s.drop p = b0 :: b1 :: rest) (h0 : 0xC2 ≤ b0.toNat)
    (h0' : b0.toNat < 0xE0) (h1 : isUtf8Tail b1 = true) :
    wtf8.Begins (s.drop p) (b0.toNat % 32 * 64 + b1.toNat % 64) rest := by
  rw [isUtf8Tail_iff] at h1
  have hvalid : b0.toNat % 32 * 64 + b1.toNat % 64 ≤ 0x10FFFF := by omega
  refine ⟨?_, hvalid, trivial⟩
  change s.drop p = utf8EncodeCodepoint _ ++ rest
  rw [utf8EncodeCodepoint_eq hvalid, if_neg (by omega), if_pos (by omega),
    ofNat_eq (b := b0) (by omega), ofNat_eq (b := b1) (by omega)]
  exact h

theorem utf8_begins_three (h : s.drop p = b0 :: b1 :: b2 :: rest) (h0 : 0xE0 ≤ b0.toNat)
    (h0' : b0.toNat < 0xF0) (h1 : isUtf8Tail b1 = true) (h2 : isUtf8Tail b2 = true)
    (hlong : 0x800 ≤ b0.toNat % 16 * 4096 + b1.toNat % 64 * 64 + b2.toNat % 64) :
    wtf8.Begins (s.drop p) (b0.toNat % 16 * 4096 + b1.toNat % 64 * 64 + b2.toNat % 64) rest := by
  rw [isUtf8Tail_iff] at h1 h2
  have hvalid : b0.toNat % 16 * 4096 + b1.toNat % 64 * 64 + b2.toNat % 64 ≤ 0x10FFFF := by omega
  refine ⟨?_, hvalid, trivial⟩
  change s.drop p = utf8EncodeCodepoint _ ++ rest
  rw [utf8EncodeCodepoint_eq hvalid, if_neg (by omega), if_neg (by omega), if_pos (by omega),
    ofNat_eq (b := b0) (by omega), ofNat_eq (b := b1) (by omega), ofNat_eq (b := b2) (by omega)]
  exact h

theorem utf8_begins_four (h : s.drop p = b0 :: b1 :: b2 :: b3 :: rest) (h0 : 0xF0 ≤ b0.toNat)
    (h0' : b0.toNat < 0xF8) (h1 : isUtf8Tail b1 = true) (h2 : isUtf8Tail b2 = true)
    (h3 : isUtf8Tail b3 = true)
    (hlong : 0x10000 ≤ b0.toNat % 8 * 262144 + b1.toNat % 64 * 4096 + b2.toNat % 64 * 64 +
      b3.toNat % 64)
    (hvalid : b0.toNat % 8 * 262144 + b1.toNat % 64 * 4096 + b2.toNat % 64 * 64 + b3.toNat % 64 ≤
      0x10FFFF) :
    wtf8.Begins (s.drop p)
      (b0.toNat % 8 * 262144 + b1.toNat % 64 * 4096 + b2.toNat % 64 * 64 + b3.toNat % 64)
      rest := by
  rw [isUtf8Tail_iff] at h1 h2 h3
  refine ⟨?_, hvalid, trivial⟩
  change s.drop p = utf8EncodeCodepoint _ ++ rest
  rw [utf8EncodeCodepoint_eq hvalid, if_neg (by omega), if_neg (by omega), if_neg (by omega),
    ofNat_eq (b := b0) (by omega), ofNat_eq (b := b1) (by omega), ofNat_eq (b := b2) (by omega),
    ofNat_eq (b := b3) (by omega)]
  exact h

/-- What the decoder says with the check: it finds the string invalid, or the string begins with
the codepoint. -/
def Decided (s : List UInt8) (p : ℕ) (decoded : C (ℕ × ℕ)) : Prop :=
  ∃ n c : ℕ, decoded = .ok (n, c) ∧
    (c = invalidCodepoint ∨ ∃ rest, wtf8.Begins (s.drop p) c rest)

theorem utf8_decided_two (h : s.drop p = b0 :: s.drop (p + 1)) (h80 : ¬ b0.toNat < 0x80)
    (hE0 : b0.toNat < 0xE0) :
    Decided s p (utf8DecodeCodepoint s p (s.length - p) true) := by
  obtain ⟨-, hload0, -⟩ := load_of_drop h
  obtain ⟨hlt80, hltE0, -, -, hleC2⟩ := lead_lt_iff b0
  have hlength : (s.drop (p + 1)).length = s.length - (p + 1) := List.length_drop
  cases hpass : (decide (0xC2 ≤ b0) && decide (2 ≤ s.length - p)) &&
      ((s.drop (p + 1)).take 1).all isUtf8Tail with
  | false =>
      refine ⟨1, invalidCodepoint, ?_, Or.inl rfl⟩
      rw [utf8DecodeCodepoint, hload0, C.ok_bind, if_neg (mt hlt80.mp h80),
        if_pos (hltE0.mpr hE0), utf8Validate_eq ?_, C.ok_bind, hpass]
      · rfl
      · intro hfront
        simp only [Bool.and_eq_true, decide_eq_true_eq] at hfront
        omega
  | true =>
      simp only [Bool.and_eq_true, decide_eq_true_eq] at hpass
      obtain ⟨⟨hC2, htwo⟩, hall⟩ := hpass
      obtain ⟨tails, rest, htails, hcount, htail⟩ := exists_tails (by omega) hall
      obtain ⟨b1, rfl⟩ := List.length_eq_one_iff.mp hcount
      have h1 := htail b1 List.mem_cons_self
      rw [htails] at h
      exact ⟨_, _, utf8Decode_two true h (hleC2.mp hC2) hE0 h1,
        Or.inr ⟨rest, utf8_begins_two h (hleC2.mp hC2) hE0 h1⟩⟩

theorem utf8_decided_three (h : s.drop p = b0 :: s.drop (p + 1)) (hE0 : ¬ b0.toNat < 0xE0)
    (hF0 : b0.toNat < 0xF0) :
    Decided s p (utf8DecodeCodepoint s p (s.length - p) true) := by
  obtain ⟨-, hload0, -⟩ := load_of_drop h
  obtain ⟨hlt80, hltE0, hltF0, -, -⟩ := lead_lt_iff b0
  have hlength : (s.drop (p + 1)).length = s.length - (p + 1) := List.length_drop
  cases hpass : decide (3 ≤ s.length - p) && ((s.drop (p + 1)).take 2).all isUtf8Tail with
  | false =>
      refine ⟨1, invalidCodepoint, ?_, Or.inl rfl⟩
      rw [utf8DecodeCodepoint, hload0, C.ok_bind, if_neg (by rw [hlt80]; omega),
        if_neg (mt hltE0.mp hE0), if_pos (hltF0.mpr hF0), utf8Validate_eq ?_, C.ok_bind, hpass]
      · rfl
      · intro hfront
        rw [decide_eq_true_eq] at hfront
        omega
  | true =>
      simp only [Bool.and_eq_true, decide_eq_true_eq] at hpass
      obtain ⟨hthree, hall⟩ := hpass
      obtain ⟨tails, rest, htails, hcount, htail⟩ := exists_tails (by omega) hall
      obtain ⟨b1, b2, rfl⟩ := List.length_eq_two.mp hcount
      have h1 := htail b1 List.mem_cons_self
      have h2 := htail b2 (List.mem_cons_of_mem b1 List.mem_cons_self)
      rw [htails] at h
      have hdecode := utf8Decode_three true h (by omega) hF0 h1 h2
      dsimp only at hdecode
      by_cases hlong : 0x800 ≤ b0.toNat % 16 * 4096 + b1.toNat % 64 * 64 + b2.toNat % 64
      · have hbegins := utf8_begins_three h (by omega) hF0 h1 h2 hlong
        rw [decide_eq_true hlong, if_neg (by decide)] at hdecode
        exact ⟨_, _, hdecode, Or.inr ⟨rest, hbegins⟩⟩
      · rw [decide_eq_false hlong, if_pos (by decide)] at hdecode
        exact ⟨_, _, hdecode, Or.inl rfl⟩

theorem utf8_decided_four (h : s.drop p = b0 :: s.drop (p + 1)) (hF0 : ¬ b0.toNat < 0xF0) :
    Decided s p (utf8DecodeCodepoint s p (s.length - p) true) := by
  obtain ⟨-, hload0, -⟩ := load_of_drop h
  obtain ⟨hlt80, hltE0, hltF0, hltF8, -⟩ := lead_lt_iff b0
  have hlength : (s.drop (p + 1)).length = s.length - (p + 1) := List.length_drop
  cases hpass : (decide (b0 < 0xF8) && decide (4 ≤ s.length - p)) &&
      ((s.drop (p + 1)).take 3).all isUtf8Tail with
  | false =>
      refine ⟨1, invalidCodepoint, ?_, Or.inl rfl⟩
      rw [utf8DecodeCodepoint, hload0, C.ok_bind, if_neg (by rw [hlt80]; omega),
        if_neg (by rw [hltE0]; omega), if_neg (mt hltF0.mp hF0), utf8Validate_eq ?_, C.ok_bind,
        hpass]
      · rfl
      · intro hfront
        simp only [Bool.and_eq_true, decide_eq_true_eq] at hfront
        omega
  | true =>
      simp only [Bool.and_eq_true, decide_eq_true_eq] at hpass
      obtain ⟨⟨hF8, hfour⟩, hall⟩ := hpass
      obtain ⟨tails, rest, htails, hcount, htail⟩ := exists_tails (by omega) hall
      obtain ⟨b1, b2, b3, rfl⟩ := List.length_eq_three.mp hcount
      have h1 := htail b1 List.mem_cons_self
      have h2 := htail b2 (List.mem_cons_of_mem b1 List.mem_cons_self)
      have h3 := htail b3 (List.mem_cons_of_mem b1 (List.mem_cons_of_mem b2 List.mem_cons_self))
      rw [htails] at h
      have hdecode := utf8Decode_four true h (by omega) (hltF8.mp hF8) h1 h2 h3
      dsimp only at hdecode
      rw [← Bool.decide_and] at hdecode
      by_cases hrange : 0x10000 ≤ b0.toNat % 8 * 262144 + b1.toNat % 64 * 4096 +
          b2.toNat % 64 * 64 + b3.toNat % 64 ∧ b0.toNat % 8 * 262144 + b1.toNat % 64 * 4096 +
          b2.toNat % 64 * 64 + b3.toNat % 64 ≤ 0x10FFFF
      · have hbegins := utf8_begins_four h (by omega) (hltF8.mp hF8) h1 h2 h3 hrange.1 hrange.2
        rw [decide_eq_true hrange, if_neg (by decide)] at hdecode
        exact ⟨_, _, hdecode, Or.inr ⟨rest, hbegins⟩⟩
      · rw [decide_eq_false hrange, if_pos (by decide)] at hdecode
        exact ⟨_, _, hdecode, Or.inl rfl⟩

/-- With the check, what is decoded is spelled. -/
theorem utf8_decides (hp : p < s.length) :
    Decided s p (utf8DecodeCodepoint s p (s.length - p) true) := by
  have hdrop := List.drop_eq_getElem_cons hp
  by_cases h80 : s[p].toNat < 0x80
  · exact ⟨_, _, utf8Decode_one true hdrop h80, Or.inr ⟨_, utf8_begins_one hdrop h80⟩⟩
  by_cases hE0 : s[p].toNat < 0xE0
  · exact utf8_decided_two hdrop h80 hE0
  by_cases hF0 : s[p].toNat < 0xF0
  · exact utf8_decided_three hdrop hE0 hF0
  · exact utf8_decided_four hdrop hF0

end Decode

theorem utf8EncodeCodepoint_ne_nil (c : ℕ) : utf8EncodeCodepoint c ≠ [] := by
  rw [utf8EncodeCodepoint]
  split_ifs <;> exact List.cons_ne_nil _ _

theorem utf8_decodes : Decodes utf8DecodeCodepoint wtf8 where
  word_ne_nil := utf8EncodeCodepoint_ne_nil
  valid := by
    intro c hvalid
    change c ≤ 0x10FFFF at hvalid
    have hinvalid : invalidCodepoint = 0xFFFFFFFF := rfl
    omega
  reads := utf8_reads
  decides := utf8_decides

/-! ## UTF-16LE -/

/-- UTF-16LE in which a surrogate may stand alone: what has no other half is a codepoint of
its own. -/
def utf16 : Code UInt8 ℕ where
  word := utf16leEncodeCodepoint
  Valid c := c ≤ 0x10FFFF
  Before c rest := isHighSurrogate c = true → 2 ≤ rest.length →
    isLowSurrogate (leValue (rest.take 2)) = false

theorem isSurrogate_iff (c : ℕ) : isSurrogate c = true ↔ 0xD800 ≤ c ∧ c < 0xE000 := by
  rw [isSurrogate, Bool.and_eq_true, decide_eq_true_eq, decide_eq_true_eq]

theorem isHighSurrogate_iff (c : ℕ) : isHighSurrogate c = true ↔ 0xD800 ≤ c ∧ c < 0xDC00 := by
  rw [isHighSurrogate, Bool.and_eq_true, decide_eq_true_eq, decide_eq_true_eq]

theorem isLowSurrogate_iff (c : ℕ) : isLowSurrogate c = true ↔ 0xDC00 ≤ c ∧ c < 0xE000 := by
  rw [isLowSurrogate, Bool.and_eq_true, decide_eq_true_eq, decide_eq_true_eq]

theorem utf16leEncodeCodepoint_pair {c : ℕ} (h : 0x10000 ≤ c) : utf16leEncodeCodepoint c =
    leBytes 2 (0xD800 + (c - 0x10000) / 1024) ++ leBytes 2 (0xDC00 + (c - 0x10000) % 1024) := by
  rw [utf16leEncodeCodepoint, if_neg (by omega), Nat.shiftRight_eq_div_pow,
    show (0x3FF : ℕ) = 2 ^ 10 - 1 from rfl, and_mask]
  rfl

theorem utf16leEncodeCodepoint_ne_nil (c : ℕ) : utf16leEncodeCodepoint c ≠ [] := by
  intro hnil
  have hlength := congrArg List.length hnil
  rw [utf16leEncodeCodepoint] at hlength
  split at hlength
  · rw [leBytes_length] at hlength
    exact absurd hlength (by decide)
  · rw [List.length_append, leBytes_length, leBytes_length] at hlength
    exact absurd hlength (by decide)

section Units

variable {s rest : List UInt8} {p u : ℕ}

/-- A unit is read as the number that it is. -/
theorem loadLE_unit (h : s.drop p = leBytes 2 u ++ rest) (hu : u < 0x10000) :
    loadLE s p 2 = .ok u ∧ s.drop (p + 2) = rest := by
  have hlength := length_sub_of_drop h
  rw [List.length_append, leBytes_length] at hlength
  constructor
  · rw [loadLE_of_le (by omega), h, List.take_left' (leBytes_length 2 u), leValue_leBytes 2 u hu]
  · rw [← List.drop_drop, h, List.drop_left' (leBytes_length 2 u)]

theorem exists_unit (h : p + 2 ≤ s.length) :
    ∃ u < 0x10000, s.drop p = leBytes 2 u ++ s.drop (p + 2) := by
  have htake : ((s.drop p).take 2).length = 2 := by
    rw [List.length_take, List.length_drop]
    omega
  have hbytes := leBytes_leValue ((s.drop p).take 2)
  have hlt := leValue_lt ((s.drop p).take 2)
  rw [htake] at hbytes hlt
  refine ⟨leValue ((s.drop p).take 2), hlt, ?_⟩
  rw [hbytes, ← List.drop_drop, List.take_append_drop]

theorem utf16_reads {c : ℕ} (validate : Bool) (h : utf16.Begins (s.drop p) c rest) :
    utf16leDecodeCodepoint s p (s.length - p) validate = .ok ((utf16.word c).length, c) := by
  obtain ⟨hword, hvalid, hbefore⟩ := h
  change c ≤ 0x10FFFF at hvalid
  change s.drop p = utf16leEncodeCodepoint c ++ rest at hword
  change _ = Except.ok ((utf16leEncodeCodepoint c).length, c)
  have hlength := length_sub_of_drop hword
  rw [List.length_append] at hlength
  by_cases hc : c < 0x10000
  · rw [utf16leEncodeCodepoint, if_pos hc] at hword hlength ⊢
    rw [leBytes_length] at hlength ⊢
    obtain ⟨hload, hdrop⟩ := loadLE_unit hword hc
    rw [utf16leDecodeCodepoint, decide_eq_true (show 2 ≤ s.length - p by omega),
      if_neg (by cases validate <;> decide), hload, C.ok_bind]
    cases hsurrogate : isSurrogate c with
    | false => rfl
    | true =>
        rw [if_pos rfl]
        split
        case isTrue => rfl
        case isFalse hpair =>
            simp only [Bool.or_eq_true, Bool.not_eq_true', decide_eq_true_eq, not_or,
              Bool.not_eq_false] at hpair
            obtain ⟨hhigh, hfour⟩ := hpair
            have hlow := hbefore hhigh (by omega)
            have hload' : loadLE s (p + 2) 2 = .ok (leValue (rest.take 2)) := by
              rw [loadLE_of_le (by omega), hdrop]
            rw [hload', C.ok_bind, hlow]
            rfl
  · rw [utf16leEncodeCodepoint_pair (by omega)] at hword hlength ⊢
    rw [List.length_append, leBytes_length, leBytes_length] at hlength ⊢
    rw [List.append_assoc] at hword
    obtain ⟨hload, hdrop⟩ := loadLE_unit hword (by omega)
    obtain ⟨hload', -⟩ := loadLE_unit hdrop (by omega)
    have hhigh := (isHighSurrogate_iff (0xD800 + (c - 0x10000) / 1024)).mpr (by omega)
    have hlow := (isLowSurrogate_iff (0xDC00 + (c - 0x10000) % 1024)).mpr (by omega)
    have hsurrogate := (isSurrogate_iff (0xD800 + (c - 0x10000) / 1024)).mpr (by omega)
    rw [utf16leDecodeCodepoint, decide_eq_true (show 2 ≤ s.length - p by omega),
      if_neg (by cases validate <;> decide), hload, C.ok_bind, if_pos hsurrogate, hhigh,
      decide_eq_false (by omega), if_neg (by decide), hload', C.ok_bind, hlow,
      if_neg (by decide), Nat.shiftLeft_eq,
      show 0x10000 + (0xD800 + (c - 0x10000) / 1024 - 0xD800) * 2 ^ 10 +
        (0xDC00 + (c - 0x10000) % 1024 - 0xDC00) = c by omega]
    rfl

/-- A unit that no other one belongs to -/
theorem utf16_begins_unit (h : s.drop p = leBytes 2 u ++ rest) (hu : u < 0x10000)
    (hbefore : utf16.Before u rest) : utf16.Begins (s.drop p) u rest := by
  refine ⟨?_, show u ≤ 0x10FFFF by omega, hbefore⟩
  change s.drop p = utf16leEncodeCodepoint u ++ rest
  rw [utf16leEncodeCodepoint, if_pos hu]
  exact h

theorem utf16_begins_pair {l : ℕ} (h : s.drop p = leBytes 2 u ++ (leBytes 2 l ++ rest))
    (hu : isHighSurrogate u = true) (hl : isLowSurrogate l = true) :
    utf16.Begins (s.drop p) (0x10000 + (u - 0xD800) * 1024 + (l - 0xDC00)) rest := by
  rw [isHighSurrogate_iff] at hu
  rw [isLowSurrogate_iff] at hl
  obtain ⟨c, hc⟩ : ∃ c, 0x10000 + (u - 0xD800) * 1024 + (l - 0xDC00) = c := ⟨_, rfl⟩
  rw [hc]
  have hvalid : c ≤ 0x10FFFF := by omega
  refine ⟨?_, hvalid, ?_⟩
  · change s.drop p = utf16leEncodeCodepoint c ++ rest
    rw [utf16leEncodeCodepoint_pair (by omega), List.append_assoc,
      show 0xD800 + (c - 0x10000) / 1024 = u by omega,
      show 0xDC00 + (c - 0x10000) % 1024 = l by omega]
    exact h
  · intro hhigh
    rw [isHighSurrogate_iff] at hhigh
    omega

/-- What the string begins with is read, whether it is a pair or not. -/
theorem utf16_begins (htwo : p + 2 ≤ s.length) : ∃ c rest, utf16.Begins (s.drop p) c rest := by
  obtain ⟨u, hu, hdrop⟩ := exists_unit htwo
  by_cases hbefore : utf16.Before u (s.drop (p + 2))
  · exact ⟨u, _, utf16_begins_unit hdrop hu hbefore⟩
  · change ¬ (_ → _ → _) at hbefore
    rw [Classical.not_imp, Classical.not_imp] at hbefore
    obtain ⟨hhigh, hlength, hlow⟩ := hbefore
    rw [List.length_drop] at hlength
    obtain ⟨l, hl, hdrop'⟩ := exists_unit (s := s) (p := p + 2) (by omega)
    rw [hdrop', List.take_left' (leBytes_length 2 l), leValue_leBytes 2 l hl,
      Bool.not_eq_false] at hlow
    rw [hdrop'] at hdrop
    exact ⟨_, _, utf16_begins_pair hdrop hhigh hlow⟩

theorem utf16_decides (hp : p < s.length) :
    ∃ n c, utf16leDecodeCodepoint s p (s.length - p) true = .ok (n, c) ∧
      (c = invalidCodepoint ∨ ∃ rest, utf16.Begins (s.drop p) c rest) := by
  by_cases htwo : p + 2 ≤ s.length
  · obtain ⟨c, rest, hbegins⟩ := utf16_begins htwo
    exact ⟨_, c, utf16_reads true hbegins, Or.inr ⟨rest, hbegins⟩⟩
  · refine ⟨min (s.length - p) 2, invalidCodepoint, ?_, Or.inl rfl⟩
    rw [utf16leDecodeCodepoint, decide_eq_false (by omega), if_pos (by decide)]

end Units

theorem utf16_decodes : Decodes utf16leDecodeCodepoint utf16 where
  word_ne_nil := utf16leEncodeCodepoint_ne_nil
  valid := by
    intro c hvalid
    change c ≤ 0x10FFFF at hvalid
    have hinvalid : invalidCodepoint = 0xFFFFFFFF := rfl
    omega
  reads := utf16_reads
  decides := utf16_decides

/-! ## There and back -/

theorem utf8EncodeCodepoint_length (c : ℕ) : (utf8EncodeCodepoint c).length =
    if c < 0x80 then 1 else if c < 0x800 then 2 else if c < 0x10000 then 3 else 4 := by
  rw [utf8EncodeCodepoint]
  split_ifs <;> rfl

theorem utf16leEncodeCodepoint_length (c : ℕ) :
    (utf16leEncodeCodepoint c).length = if c < 0x10000 then 2 else 4 := by
  rw [utf16leEncodeCodepoint]
  split_ifs
  · rw [leBytes_length]
  · rw [List.length_append, leBytes_length, leBytes_length]

theorem utf8EncodeCodepoint_fits (c : ℕ) : (utf8EncodeCodepoint c).length ≤ 8 := by
  rw [utf8EncodeCodepoint_length]
  split_ifs <;> decide

theorem utf16leEncodeCodepoint_fits (c : ℕ) : (utf16leEncodeCodepoint c).length ≤ 8 := by
  rw [utf16leEncodeCodepoint_length]
  split_ifs <;> decide

theorem exists_utf16_spells {s : List UInt8} (heven : s.length % 2 = 0) :
    ∃ cs, utf16.Spells s cs := by
  induction hn : s.length using Nat.strong_induction_on generalizing s with
  | h n ih =>
      by_cases hnil : s = []
      · exact ⟨[], Code.Spells.nil_iff.mpr hnil⟩
      · have hpos := List.length_pos_iff.mpr hnil
        obtain ⟨c, rest, hbegins⟩ := utf16_begins (s := s) (p := 0) (by omega)
        change utf16.Begins s c rest at hbegins
        have hlength := congrArg List.length hbegins.1
        change _ = (utf16leEncodeCodepoint c ++ rest).length at hlength
        rw [List.length_append, utf16leEncodeCodepoint_length] at hlength
        have hword : (if c < 0x10000 then 2 else 4) = 2 ∨ (if c < 0x10000 then 2 else 4) = 4 := by
          split_ifs <;> decide
        obtain ⟨cs, hcs⟩ := ih rest.length (by omega) (show rest.length % 2 = 0 by omega) rfl
        exact ⟨c :: cs, .cons hbegins hcs⟩

theorem even_of_spells {s : List UInt8} {cs : List ℕ} (h : utf16.Spells s cs) :
    s.length % 2 = 0 := by
  induction h with
  | nil => rfl
  | @cons s rest c cs hbegins hrest ih =>
      have hlength := congrArg List.length hbegins.1
      change _ = (utf16leEncodeCodepoint c ++ rest).length at hlength
      rw [List.length_append, utf16leEncodeCodepoint_length] at hlength
      split_ifs at hlength <;> omega

/-- Every name that Windows can have is converted, and converted back it is the same name.
Half a unit at the end is no name. -/
theorem utf16leToUtf8_comes_back (heap : HeapAnswer UInt8) (s : List UInt8) :
    if s.length % 2 = 0 then
      ∃ t, utf16leToUtf8 heap s = handedOut heap t [0] ∧
        utf8ToUtf16le heap t = handedOut heap s [0, 0]
    else utf16leToUtf8 heap s = .ok (.error .invalidUtf16String) := by
  split
  case isTrue heven =>
      obtain ⟨cs, hcs⟩ := exists_utf16_spells heven
      have hspells : wtf8.Spells (cs.flatMap utf8EncodeCodepoint) cs :=
        .of_valid (fun _ _ => trivial) hcs.valid
      refine ⟨cs.flatMap utf8EncodeCodepoint,
        convertString_spells utf16_decodes utf8EncodeCodepoint_fits hcs, ?_⟩
      rw [utf8ToUtf16le, convertString_spells utf8_decodes utf16leEncodeCodepoint_fits hspells,
        hcs.eq_flatMap]
      rfl
  case isFalse hodd =>
      exact convertString_refuses utf16_decodes utf8EncodeCodepoint_fits fun cs hcs =>
        hodd (even_of_spells hcs)

/-- A high surrogate and a low one behind it become one codepoint. -/
def joinPairs : List ℕ → List ℕ
  | h :: l :: cs =>
      if isHighSurrogate h && isLowSurrogate l then
        (0x10000 + (h - 0xD800) * 1024 + (l - 0xDC00)) :: joinPairs cs
      else h :: joinPairs (l :: cs)
  | cs => cs

/-- A surrogate that is encoded for itself and has the other half behind it -/
def EncodedPair (s : List UInt8) : Prop :=
  ∃ front h t l u rest, s = front ++ 0xED :: h :: t :: 0xED :: l :: u :: rest ∧
    0xA0 ≤ h ∧ h < 0xB0 ∧ 0xB0 ≤ l

theorem before_word {h l : ℕ} (hpair : (isHighSurrogate h && isLowSurrogate l) = false)
    (hl : l ≤ 0x10FFFF) (rest : List UInt8) :
    utf16.Before h (utf16leEncodeCodepoint l ++ rest) := by
  intro hhigh hlength
  rw [hhigh, Bool.true_and] at hpair
  by_cases hunit : l < 0x10000
  · rw [utf16leEncodeCodepoint, if_pos hunit, List.take_left' (leBytes_length 2 l),
      leValue_leBytes 2 l hunit]
    exact hpair
  · rw [utf16leEncodeCodepoint_pair (by omega), List.append_assoc,
      List.take_left' (leBytes_length 2 _), leValue_leBytes 2 _ (by omega), ← Bool.not_eq_true,
      isLowSurrogate_iff]
    omega

/-- What is written as UTF-16LE is read with its pairs joined. -/
theorem utf16_spells_joinPairs {cs : List ℕ} (hvalid : ∀ c ∈ cs, c ≤ 0x10FFFF) :
    utf16.Spells (cs.flatMap utf16leEncodeCodepoint) (joinPairs cs) := by
  induction cs using joinPairs.induct with
  | case1 h l cs hpair ih =>
      have hrest := ih fun c hc => hvalid c (List.mem_cons_of_mem h (List.mem_cons_of_mem l hc))
      rw [Bool.and_eq_true] at hpair
      obtain ⟨hhigh, hlow⟩ := hpair
      have hh := (isHighSurrogate_iff h).mp hhigh
      have hl := (isLowSurrogate_iff l).mp hlow
      rw [joinPairs, hhigh, hlow, if_pos (by decide)]
      have hunits : (h :: l :: cs).flatMap utf16leEncodeCodepoint =
          leBytes 2 h ++ (leBytes 2 l ++ cs.flatMap utf16leEncodeCodepoint) := by
        rw [List.flatMap_cons, List.flatMap_cons, utf16leEncodeCodepoint, if_pos (by omega),
          utf16leEncodeCodepoint, if_pos (by omega)]
      exact .cons (utf16_begins_pair (p := 0) hunits hhigh hlow) hrest
  | case2 h l cs hpair ih =>
      rw [Bool.not_eq_true] at hpair
      have hrest := ih fun c hc => hvalid c (List.mem_cons_of_mem h hc)
      have hl := hvalid l (List.mem_cons_of_mem h List.mem_cons_self)
      rw [joinPairs, hpair, if_neg (by decide)]
      refine .cons ⟨List.flatMap_cons, hvalid h List.mem_cons_self, ?_⟩ hrest
      rw [List.flatMap_cons]
      exact before_word hpair hl _
  | case3 cs hcs =>
      cases cs with
      | nil => exact .nil
      | cons c cs =>
          cases cs with
          | nil =>
              refine .cons ⟨List.flatMap_cons, hvalid c List.mem_cons_self, ?_⟩ .nil
              intro _ hlength
              exact absurd hlength (by decide)
          | cons l cs => exact absurd rfl (hcs c l cs)

/-- A joined pair takes four bytes, its two halves take six. -/
theorem joinPairs_shorter (cs : List ℕ) :
    joinPairs cs = cs ∨ ((joinPairs cs).flatMap utf8EncodeCodepoint).length <
      (cs.flatMap utf8EncodeCodepoint).length := by
  induction cs using joinPairs.induct with
  | case1 h l cs hpair ih =>
      right
      have hle : ((joinPairs cs).flatMap utf8EncodeCodepoint).length ≤
          (cs.flatMap utf8EncodeCodepoint).length := by
        rcases ih with heq | hlt
        · rw [heq]
        · exact Nat.le_of_lt hlt
      rw [joinPairs, if_pos hpair]
      rw [Bool.and_eq_true, isHighSurrogate_iff, isLowSurrogate_iff] at hpair
      have hh := utf8EncodeCodepoint_length h
      have hl := utf8EncodeCodepoint_length l
      have hc := utf8EncodeCodepoint_length (0x10000 + (h - 0xD800) * 1024 + (l - 0xDC00))
      rw [if_neg (by omega), if_neg (by omega), if_pos (by omega)] at hh hl
      rw [if_neg (by omega), if_neg (by omega), if_neg (by omega)] at hc
      simp only [List.flatMap_cons, List.length_append]
      omega
  | case2 h l cs hpair ih =>
      rw [joinPairs, if_neg hpair]
      rcases ih with heq | hlt
      · left
        rw [heq]
      · right
        rw [List.flatMap_cons, List.flatMap_cons, List.length_append, List.length_append]
        omega
  | case3 cs hcs =>
      left
      rw [joinPairs]
      exact hcs

theorem joinPairs_flatMap_eq_iff (cs : List ℕ) :
    (joinPairs cs).flatMap utf8EncodeCodepoint = cs.flatMap utf8EncodeCodepoint ↔
      joinPairs cs = cs := by
  constructor
  · intro h
    rcases joinPairs_shorter cs with heq | hlt
    · exact heq
    · rw [h] at hlt
      exact absurd hlt (Nat.lt_irrefl _)
  · intro h
    rw [h]

theorem joinPairs_eq_iff (cs : List ℕ) : joinPairs cs = cs ↔
    ¬ ∃ front h l rest, cs = front ++ h :: l :: rest ∧ isHighSurrogate h = true ∧
      isLowSurrogate l = true := by
  induction cs using joinPairs.induct with
  | case1 h l cs hpair ih =>
      constructor
      · intro heq
        rw [joinPairs, if_pos hpair] at heq
        have hhead := (List.cons.inj heq).1
        rw [Bool.and_eq_true, isHighSurrogate_iff] at hpair
        omega
      · intro hnone
        rw [Bool.and_eq_true] at hpair
        exact absurd ⟨[], h, l, cs, rfl, hpair.1, hpair.2⟩ hnone
  | case2 h l cs hpair ih =>
      rw [joinPairs, if_neg hpair, List.cons_inj_right, ih, not_iff_not]
      constructor
      · rintro ⟨front, h', l', rest, heq, hh, hl⟩
        exact ⟨h :: front, h', l', rest, by rw [heq, List.cons_append], hh, hl⟩
      · rintro ⟨front, h', l', rest, heq, hh, hl⟩
        cases front with
        | nil =>
            obtain ⟨rfl, htail⟩ := List.cons.inj heq
            obtain ⟨rfl, -⟩ := List.cons.inj htail
            rw [hh, hl] at hpair
            exact absurd rfl hpair
        | cons a front =>
            obtain ⟨rfl, htail⟩ := List.cons.inj heq
            exact ⟨front, h', l', rest, htail, hh, hl⟩
  | case3 cs hcs =>
      constructor
      · rintro - ⟨front, h, l, rest, rfl, -, -⟩
        cases front with
        | nil => exact hcs h l rest rfl
        | cons a front =>
            cases front with
            | nil => exact hcs a h (l :: rest) rfl
            | cons b front => exact hcs a b (front ++ h :: l :: rest) rfl
      · intro _
        rw [joinPairs]
        exact hcs

/-- A surrogate is spelled with a byte ED, and its half can be seen in the next byte. -/
theorem utf8EncodeCodepoint_surrogate {c : ℕ} (h : isSurrogate c = true) :
    utf8EncodeCodepoint c = [0xED, .ofNat (0x80 + c / 64 % 64), .ofNat (0x80 + c % 64)] := by
  rw [isSurrogate_iff] at h
  rw [utf8EncodeCodepoint_eq (by omega), if_neg (by omega), if_neg (by omega), if_pos (by omega),
    show 0xE0 + c / 4096 = 0xED by omega]
  rfl

/-- What begins with a byte ED is a codepoint that the next byte and the one behind that tell. -/
theorem utf8EncodeCodepoint_lead {c : ℕ} (hc : c ≤ 0x10FFFF) {xs : List UInt8}
    (h : utf8EncodeCodepoint c = 0xED :: xs) :
    0xD000 ≤ c ∧ c < 0xE000 ∧ ∃ b1 b2, xs = [b1, b2] ∧ b1.toNat = 0x80 + c / 64 % 64 := by
  have hED : (0xED : UInt8).toNat = 237 := rfl
  rw [utf8EncodeCodepoint_eq hc] at h
  split_ifs at h with h1 h2 h3
  · have hhead := congrArg UInt8.toNat (List.cons.inj h).1
    rw [toNat_byte (by omega)] at hhead
    omega
  · have hhead := congrArg UInt8.toNat (List.cons.inj h).1
    rw [toNat_byte (by omega)] at hhead
    omega
  · obtain ⟨hhead, hxs⟩ := List.cons.inj h
    have hvalue := congrArg UInt8.toNat hhead
    rw [toNat_byte (by omega)] at hvalue
    exact ⟨by omega, by omega, _, _, hxs.symm, toNat_byte (by omega)⟩
  · have hhead := congrArg UInt8.toNat (List.cons.inj h).1
    rw [toNat_byte (by omega)] at hhead
    omega

/-- No byte of a codepoint but the first is a byte ED. -/
theorem lead_not_mem_tail {c : ℕ} (hc : c ≤ 0x10FFFF) :
    ∀ b ∈ (utf8EncodeCodepoint c).tail, b ≠ 0xED := by
  have htail : ∀ n : ℕ, UInt8.ofNat (0x80 + n % 64) ≠ 0xED := by
    intro n heq
    have hvalue := congrArg UInt8.toNat heq
    rw [toNat_byte (by omega)] at hvalue
    have hED : (0xED : UInt8).toNat = 237 := rfl
    omega
  have hnone : ∀ b ∈ ([] : List UInt8), b ≠ 0xED := List.forall_mem_nil _
  rw [utf8EncodeCodepoint_eq hc]
  split_ifs
  · exact hnone
  · exact List.forall_mem_cons.mpr ⟨htail _, hnone⟩
  · exact List.forall_mem_cons.mpr ⟨htail _, List.forall_mem_cons.mpr ⟨htail _, hnone⟩⟩
  · exact List.forall_mem_cons.mpr ⟨htail _, List.forall_mem_cons.mpr ⟨htail _,
      List.forall_mem_cons.mpr ⟨htail _, hnone⟩⟩⟩

/-- A byte ED that text begins with is the first one of a codepoint. -/
theorem exists_lead {cs : List ℕ} (hvalid : ∀ c ∈ cs, c ≤ 0x10FFFF) {b : UInt8}
    {xs : List UInt8} (h : cs.flatMap utf8EncodeCodepoint = 0xED :: b :: xs) :
    ∃ c cs' b', cs = c :: cs' ∧ 0xD000 ≤ c ∧ c < 0xE000 ∧ b.toNat = 0x80 + c / 64 % 64 ∧
      xs = b' :: cs'.flatMap utf8EncodeCodepoint := by
  cases cs with
  | nil => exact absurd h.symm (List.cons_ne_nil _ _)
  | cons c cs =>
      rw [List.flatMap_cons] at h
      obtain ⟨b0, tail, hword⟩ := List.exists_cons_of_ne_nil (utf8EncodeCodepoint_ne_nil c)
      rw [hword] at h
      obtain ⟨rfl, htail⟩ := List.cons.inj h
      obtain ⟨hD0, hE0, b1, b2, rfl, hb1⟩ :=
        utf8EncodeCodepoint_lead (hvalid c List.mem_cons_self) hword
      obtain ⟨rfl, hxs⟩ := List.cons.inj htail
      exact ⟨c, cs, b2, rfl, hD0, hE0, hb1, hxs.symm⟩

/-- Encoded pairs are where the codepoints have pairs, and nowhere else. -/
theorem encodedPair_iff {cs : List ℕ} (hvalid : ∀ c ∈ cs, c ≤ 0x10FFFF) :
    EncodedPair (cs.flatMap utf8EncodeCodepoint) ↔ ∃ front h l rest,
      cs = front ++ h :: l :: rest ∧ isHighSurrogate h = true ∧ isLowSurrogate l = true := by
  constructor
  · rintro ⟨front, h, t, l, u, rest, heq, hA0, hB0, hlow⟩
    rw [UInt8.le_iff_toNat_le] at hA0 hlow
    rw [UInt8.lt_iff_toNat_lt] at hB0
    change 160 ≤ h.toNat at hA0
    change h.toNat < 176 at hB0
    change 176 ≤ l.toNat at hlow
    induction cs generalizing front with
    | nil => exact absurd heq.symm (List.append_ne_nil_of_right_ne_nil _ (List.cons_ne_nil _ _))
    | cons c cs ih =>
        have hcs : ∀ d ∈ cs, d ≤ 0x10FFFF := fun d hd => hvalid d (List.mem_cons_of_mem c hd)
        cases front with
        | nil =>
            obtain ⟨c', cs', b, hcons, hD0, hE0, hh, hrest⟩ := exists_lead hvalid heq
            obtain ⟨rfl, rfl⟩ := List.cons.inj hcons
            obtain ⟨d, cs'', b', rfl, hdD0, hdE0, hl, -⟩ :=
              exists_lead hcs (List.cons.inj hrest).2.symm
            exact ⟨[], c, d, cs'', rfl, (isHighSurrogate_iff c).mpr (by omega),
              (isLowSurrogate_iff d).mpr (by omega)⟩
        | cons b0 front =>
            obtain ⟨b0', tail, hword⟩ := List.exists_cons_of_ne_nil (utf8EncodeCodepoint_ne_nil c)
            have hnotin := lead_not_mem_tail (hvalid c List.mem_cons_self)
            rw [List.flatMap_cons, hword] at heq
            rw [hword, List.tail_cons] at hnotin
            have hbehind := (List.cons.inj heq).2
            rcases List.append_eq_append_iff.mp hbehind with
              ⟨front', -, hrest⟩ | ⟨word, hword', hrest⟩
            · -- The pair is behind the first codepoint.
              obtain ⟨front'', h', l', rest', heq', hhigh', hlow'⟩ := ih hcs front' hrest
              exact ⟨c :: front'', h', l', rest', by rw [heq', List.cons_append], hhigh', hlow'⟩
            · cases word with
              | nil =>
                  obtain ⟨front'', h', l', rest', heq', hhigh', hlow'⟩ := ih hcs [] hrest.symm
                  exact ⟨c :: front'', h', l', rest', by rw [heq', List.cons_append], hhigh',
                    hlow'⟩
              | cons w word =>
                  obtain ⟨rfl, -⟩ := List.cons.inj hrest
                  refine absurd rfl (hnotin 0xED ?_)
                  rw [hword']
                  exact List.mem_append_right _ List.mem_cons_self
  · rintro ⟨front, h, l, rest, rfl, hhigh, hlow⟩
    rw [isHighSurrogate_iff] at hhigh
    rw [isLowSurrogate_iff] at hlow
    have hh := utf8EncodeCodepoint_surrogate ((isSurrogate_iff h).mpr (by omega))
    have hl := utf8EncodeCodepoint_surrogate ((isSurrogate_iff l).mpr (by omega))
    refine ⟨front.flatMap utf8EncodeCodepoint, .ofNat (0x80 + h / 64 % 64),
      .ofNat (0x80 + h % 64), .ofNat (0x80 + l / 64 % 64), .ofNat (0x80 + l % 64),
      rest.flatMap utf8EncodeCodepoint, ?_, ?_, ?_, ?_⟩
    · rw [List.flatMap_append, List.flatMap_cons, List.flatMap_cons, hh, hl]
      rfl
    · rw [UInt8.le_iff_toNat_le, toNat_byte (by omega)]
      change 160 ≤ _
      omega
    · rw [UInt8.lt_iff_toNat_lt, toNat_byte (by omega)]
      change _ < 176
      omega
    · rw [UInt8.le_iff_toNat_le, toNat_byte (by omega)]
      change 176 ≤ _
      omega

/-- A UNIX name is converted if it is WTF-8 and refused otherwise. Converted back it is the same
name unless it has an encoded pair of surrogates, which becomes one codepoint. -/
theorem utf8ToUtf16le_comes_back (heap : HeapAnswer UInt8) (s : List UInt8) :
    (∃ cs : List ℕ, (∀ c ∈ cs, c ≤ 0x10FFFF) ∧ s = cs.flatMap utf8EncodeCodepoint ∧
      ∃ t s', utf8ToUtf16le heap s = handedOut heap t [0, 0] ∧
        utf16leToUtf8 heap t = handedOut heap s' [0] ∧ (s' = s ↔ ¬ EncodedPair s)) ∨
    (¬ ∃ cs : List ℕ, (∀ c ∈ cs, c ≤ 0x10FFFF) ∧ s = cs.flatMap utf8EncodeCodepoint) ∧
      utf8ToUtf16le heap s = .ok (.error .invalidUtf8String) := by
  by_cases h : ∃ cs : List ℕ, (∀ c ∈ cs, c ≤ 0x10FFFF) ∧ s = cs.flatMap utf8EncodeCodepoint
  · left
    obtain ⟨cs, hvalid, rfl⟩ := h
    have hspells : wtf8.Spells (cs.flatMap utf8EncodeCodepoint) cs :=
      .of_valid (fun _ _ => trivial) hvalid
    refine ⟨cs, hvalid, rfl, cs.flatMap utf16leEncodeCodepoint,
      (joinPairs cs).flatMap utf8EncodeCodepoint,
      convertString_spells utf8_decodes utf16leEncodeCodepoint_fits hspells,
      convertString_spells utf16_decodes utf8EncodeCodepoint_fits (utf16_spells_joinPairs hvalid),
      ?_⟩
    rw [joinPairs_flatMap_eq_iff, joinPairs_eq_iff, encodedPair_iff hvalid]
  · right
    refine ⟨h, convertString_refuses utf8_decodes utf16leEncodeCodepoint_fits ?_⟩
    intro cs hcs
    exact h ⟨cs, hcs.valid, hcs.eq_flatMap⟩

end Nawam.Wim
