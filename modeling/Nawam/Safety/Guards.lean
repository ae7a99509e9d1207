import Nawam.Base.Numeral

/-!
# The network input guards

`nawam_safety.h`: the length guards of the downloads and the structural
validation of a DBX, an `EFI_VARIABLE_AUTHENTICATION_2` header followed by EFI
signature lists. The guards are pure; `size_t` is 64 bits, and no sum below
can leave it because every length is compared with what is left of the buffer
before it is added.
-/

namespace Nawam

abbrev uint64Max : ℕ := 2 ^ 64 - 1

abbrev sizeMax : ℕ := 2 ^ 64 - 1

def contentLengthLoop : ℕ → List UInt8 → Option ℕ
  | value, [] => some value
  | value, c :: rest =>
      -- `(unsigned char)text[i] - '0'` as an `unsigned int`
      let digit := (c.toNat + (2 ^ 32 - 48)) % 2 ^ 32
      if 9 < digit ∨ (uint64Max - digit) / 10 < value then none
      else contentLengthLoop (value * 10 + digit) rest

/-- `NawamParseContentLength`: the value stored in `*result` when the function
returns nonzero. -/
def nawamParseContentLength (text : List UInt8) : Option ℕ :=
  if text.length = 0 then none
  else
    match contentLengthLoop 0 text with
    | none => none
    | some value => if value ≠ 0 then some value else none

def nawamDownloadLengthValid (length : ℕ) (buffered : Bool) : Bool :=
  length ≠ 0 && (!buffered ||
    (length ≤ 64 * 1024 * 1024 && length ≤ sizeMax - 2))

def nawamDownloadChunkValid (length used chunk : ℕ) : Bool :=
  used ≤ length && chunk ≤ length - used

def nawamReadLE32 (data : List UInt8) (offset : ℕ) : ℕ :=
  leValue ((data.drop offset).take 4)

/-- `EFI_CERT_SHA256_GUID`, as it stands in memory. -/
def efiCertSha256Guid : List UInt8 :=
  [0x26, 0x16, 0xc4, 0xc1, 0x4c, 0x50, 0x92, 0x40, 0xac, 0xa9, 0x41, 0xf9,
    0x36, 0x93, 0x43, 0x28]

/-- The loop over the signature lists, from `offset`. -/
def dbxLoop (data : List UInt8) (offset : ℕ) (first : Bool) : Bool :=
  if _h : offset < data.length then
    if data.length - offset < 28 then false
    else
      let listLength := nawamReadLE32 data (offset + 16)
      let headerLength := nawamReadLE32 data (offset + 20)
      let signatureLength := nawamReadLE32 data (offset + 24)
      let type := (data.drop offset).take 16
      if listLength < 28 ∨ data.length - offset < listLength ∨
          listLength - 28 < headerLength ∨ signatureLength ≤ 16 ∨
          listLength - 28 - headerLength < signatureLength ∨
          (listLength - 28 - headerLength) % signatureLength ≠ 0 then false
      -- hash.c consumes the first list as SHA-256 with a 16-byte owner
      else if (first = true ∧ type ≠ efiCertSha256Guid) ∨
          (type = efiCertSha256Guid ∧ signatureLength ≠ 48) then false
      else dbxLoop data (offset + listLength) false
  else offset = data.length
termination_by data.length - offset
decreasing_by omega

def nawamDbxValid (data : List UInt8) : Bool :=
  if data.length < 40 then false
  else
    let authLength := nawamReadLE32 data 16
    if authLength < 24 ∨ data.length - 16 < authLength then false
    else if 16 + authLength = data.length then false
    else dbxLoop data (16 + authLength) true

/-! ## The length of a download -/

/-- The loop multiplies and adds, and a byte below `'0'` is a digit far above 9. -/
theorem contentLengthLoop_eq : ∀ (text : List UInt8) (value : ℕ),
    contentLengthLoop value text = checkedNumeral uint64Max 10 value text
  | [], _ => rfl
  | c :: rest, value => by
      have hc := c.toNat_lt
      rw [contentLengthLoop, checkedNumeral]
      by_cases hdigit : isDigit c = true
      · have hvalue : (c.toNat + (2 ^ 32 - 48)) % 2 ^ 32 = c.toNat - 48 := by
          rw [isDigit, Bool.and_eq_true, decide_eq_true_eq, UInt8.le_iff_toNat_le] at hdigit
          have hzero : (48 : UInt8).toNat = 48 := rfl
          omega
        have hten : 9 < c.toNat - 48 ↔ 10 ≤ c.toNat - 48 := Iff.rfl
        rw [hvalue, digitValue_of_isDigit hdigit]
        simp only [hten, contentLengthLoop_eq rest]
      · have hfar : 9 < (c.toNat + (2 ^ 32 - 48)) % 2 ^ 32 := by
          rw [isDigit, Bool.and_eq_true, decide_eq_true_eq, decide_eq_true_eq,
            UInt8.le_iff_toNat_le, UInt8.le_iff_toNat_le] at hdigit
          have hzero : (48 : UInt8).toNat = 48 := rfl
          have hnine : (57 : UInt8).toNat = 57 := rfl
          omega
        rw [if_pos (Or.inl hfar)]
        cases hd : digitValue c with
        | none => rfl
        | some d =>
            have hten : 10 ≤ d := by
              by_contra hlt
              exact hdigit (digitValue_lt_ten_iff.mp ⟨d, hd, Nat.lt_of_not_le hlt⟩)
            exact (if_pos (Or.inl hten)).symm

/-- **Content-Length** is accepted exactly if it is a decimal numeral of a value that is not
zero and fits 64 bits, and that is the length. -/
theorem nawamParseContentLength_eq_some_iff (text : List UInt8) (v : ℕ) :
    nawamParseContentLength text = some v ↔ Numeral 10 text v ∧ 1 ≤ v ∧ v < 2 ^ 64 := by
  have hloop (w : ℕ) : contentLengthLoop 0 text = some w ↔
      numeralFrom 10 0 text = some w ∧ w ≤ uint64Max := by
    rw [contentLengthLoop_eq]
    exact checkedNumeral_eq_some_iff (by decide) (by decide) (Nat.zero_le _)
  have hmax : v ≤ uint64Max ↔ v < 2 ^ 64 := by
    rw [uint64Max]
    omega
  rw [nawamParseContentLength, Numeral]
  by_cases hempty : text = []
  · rw [if_pos (List.length_eq_zero_iff.mpr hempty)]
    exact iff_of_false (fun h => nomatch h) fun h => h.1.1 hempty
  · rw [if_neg (hempty ∘ List.length_eq_zero_iff.mp)]
    cases hvalue : contentLengthLoop 0 text with
    | none =>
        refine iff_of_false (fun h => nomatch h) fun h => ?_
        have hsome := (hloop v).mpr ⟨h.1.2, hmax.mpr h.2.2⟩
        rw [hvalue] at hsome
        cases hsome
    | some w =>
        obtain ⟨hw, hle⟩ := (hloop w).mp hvalue
        dsimp only
        by_cases hzero : w ≠ 0
        · rw [if_pos hzero, Option.some_inj]
          constructor
          · rintro rfl
            exact ⟨⟨hempty, hw⟩, Nat.pos_of_ne_zero hzero, hmax.mp hle⟩
          · rintro ⟨⟨-, hv⟩, -, -⟩
            exact Option.some_inj.mp (hw.symm.trans hv)
        · rw [if_neg hzero]
          refine iff_of_false (fun h => nomatch h) fun h => ?_
          have heq := Option.some_inj.mp (hw.symm.trans h.1.2)
          omega

end Nawam
