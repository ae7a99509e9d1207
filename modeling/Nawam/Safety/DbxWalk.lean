import Nawam.Base.Align
import Nawam.Safety.DbxFormat

/-!
# The DBX validator on the machine

`NawamDbxValid` once more, as it runs: every byte is read from the buffer, the
size fields are 32 bits wide, the offset and the size 64, and each sum and
difference is that of its type. On data of any length that a `size_t` can hold
none of them wraps, every read is inside of the data, and the loop comes to
its end; so what it returns is what `nawamDbxValid` says.
-/

namespace Nawam

/-! ## Source -/

/-- The loop over the signature lists, with an iteration for each unit of
`fuel`. -/
def dbxWalk (data : List UInt8) : ℕ → ℕ → Bool → C Bool
  | 0, _, _ => .error .outOfFuel
  | fuel + 1, offset, first =>
      let size := data.length
      if offset < size then
        if wrapSub 64 size offset < 28 then return false
        else do
          let listLength ← loadLE data (offset + 16) 4
          let headerLength ← loadLE data (offset + 20) 4
          let signatureLength ← loadLE data (offset + 24) 4
          let room := wrapSub 32 (wrapSub 32 listLength 28) headerLength
          if listLength < 28 ∨ wrapSub 64 size offset < listLength ∨
              wrapSub 32 listLength 28 < headerLength ∨ signatureLength ≤ 16 ∨
              room < signatureLength then return false
          else
            -- the last operand is reached only here
            let rest ← modulo room signatureLength
            if rest ≠ 0 then return false
            else
              let type ← loadN data offset 16
              if (first = true ∧ type ≠ efiCertSha256Guid) ∨
                  (type = efiCertSha256Guid ∧ signatureLength ≠ 48) then
                return false
              else dbxWalk data fuel ((offset + listLength) % 2 ^ 64) false
      else return offset = size

/-- `NawamDbxValid` -/
def nawamDbxValidWalk (data : List UInt8) : C Bool :=
  if data.length < 40 then return false
  else do
    let authLength ← loadLE data 16 4
    if authLength < 24 ∨ wrapSub 64 data.length 16 < authLength then return false
    else
      let offset := (16 + authLength) % 2 ^ 64
      if offset = data.length then return false
      else dbxWalk data data.length offset true

/-! ## The walk -/

theorem nawamReadLE32_lt (data : List UInt8) (offset : ℕ) :
    nawamReadLE32 data offset < 2 ^ 32 := by
  have hlt := leValue_lt ((data.drop offset).take 4)
  have hlen := List.length_take_le 4 (data.drop offset)
  have hmono : 256 ^ ((data.drop offset).take 4).length ≤ 256 ^ 4 :=
    Nat.pow_le_pow_right (by decide) hlen
  exact lt_of_lt_of_le hlt hmono

theorem loadLE_eq_read {data : List UInt8} {offset : ℕ}
    (h : offset + 4 ≤ data.length) :
    loadLE data offset 4 = .ok (nawamReadLE32 data offset) :=
  loadLE_of_le h

theorem or_last {a b c d e f : Prop} :
    a ∨ b ∨ c ∨ d ∨ e ∨ f ↔ (a ∨ b ∨ c ∨ d ∨ e) ∨ f := by
  simp only [or_assoc]

/-- One iteration computes what one of the loop on numbers does. -/
theorem dbxWalk_ok {data : List UInt8} (hsize : data.length < 2 ^ 64) :
    ∀ (fuel offset : ℕ) (first : Bool), data.length - offset < fuel →
      offset ≤ data.length →
      dbxWalk data fuel offset first = .ok (dbxLoop data offset first)
  | fuel + 1, offset, first, hfuel, hle => by
      rw [dbxWalk, dbxLoop]
      by_cases hlt : offset < data.length
      · have hleft : wrapSub 64 data.length offset = data.length - offset :=
          wrapSub_of_le hle (by omega)
        simp only [if_pos hlt, dif_pos hlt, hleft]
        by_cases hshort : data.length - offset < 28
        · rw [if_pos hshort, if_pos hshort]
          rfl
        · have hlist := nawamReadLE32_lt data (offset + 16)
          have hheader := nawamReadLE32_lt data (offset + 20)
          rw [if_neg hshort, if_neg hshort, loadLE_eq_read (by omega),
            loadLE_eq_read (by omega), loadLE_eq_read (by omega),
            loadN_of_le (by omega)]
          simp only [C.ok_bind, or_last]
          generalize nawamReadLE32 data (offset + 16) = listLength at *
          generalize nawamReadLE32 data (offset + 20) = headerLength at *
          generalize nawamReadLE32 data (offset + 24) = signatureLength at *
          by_cases hchecks : listLength < 28 ∨ data.length - offset < listLength ∨
              listLength - 28 < headerLength ∨ signatureLength ≤ 16 ∨
              listLength - 28 - headerLength < signatureLength
          · -- a comparison that fails does so before any difference can wrap
            have hfails : listLength < 28 ∨ data.length - offset < listLength ∨
                wrapSub 32 listLength 28 < headerLength ∨ signatureLength ≤ 16 ∨
                wrapSub 32 (wrapSub 32 listLength 28) headerLength
                  < signatureLength := by
              by_cases h : listLength < 28
              · exact .inl h
              · rw [wrapSub_of_le (show 28 ≤ listLength by omega) (by omega)]
                by_cases h' : listLength - 28 < headerLength
                · exact .inr (.inr (.inl h'))
                · rw [wrapSub_of_le (Nat.le_of_not_lt h') (by omega)]
                  exact hchecks
            rw [if_pos hfails, if_pos (.inl hchecks)]
            rfl
          · have hlow : wrapSub 32 listLength 28 = listLength - 28 :=
              wrapSub_of_le (by omega) (by omega)
            have hroom : wrapSub 32 (listLength - 28) headerLength
                = listLength - 28 - headerLength :=
              wrapSub_of_le (by omega) (by omega)
            have hnext : (offset + listLength) % 2 ^ 64 = offset + listLength :=
              Nat.mod_eq_of_lt (by omega)
            rw [hlow, hroom, if_neg hchecks, modulo_of_pos (by omega), C.ok_bind,
              hnext, dbxWalk_ok hsize fuel _ false (by omega) (by omega)]
            by_cases hrest :
                (listLength - 28 - headerLength) % signatureLength = 0
            · rw [if_neg (not_not.mpr hrest),
                if_neg (not_or.mpr ⟨hchecks, not_not.mpr hrest⟩)]
              split <;> rfl
            · rw [if_pos hrest, if_pos (.inr hrest)]
              rfl
      · simp only [if_neg hlt, dif_neg hlt, C.pure_eq]

/-- **The validator accepts exactly the format, and the machine follows it.**
On every data it comes to an answer without a read outside of it or a division
by zero, and the answer is whether the data is a DBX. -/
theorem nawamDbxValidWalk_iff (data : List UInt8) (hsize : data.length < 2 ^ 64) :
    ∃ valid, nawamDbxValidWalk data = .ok valid ∧
      (valid = true ↔ ∃ first ls, DbxFormat data first ls) := by
  refine ⟨nawamDbxValid data, ?_, nawamDbxValid_iff data⟩
  unfold nawamDbxValidWalk nawamDbxValid
  by_cases hshort : data.length < 40
  · rw [if_pos hshort, if_pos hshort]
    rfl
  · have hauth := nawamReadLE32_lt data 16
    have hleft : wrapSub 64 data.length 16 = data.length - 16 :=
      wrapSub_of_le (by omega) (by omega)
    rw [if_neg hshort, if_neg hshort, loadLE_eq_read (by omega), hleft]
    simp only [C.ok_bind]
    generalize nawamReadLE32 data 16 = authLength at *
    by_cases hfails : authLength < 24 ∨ data.length - 16 < authLength
    · rw [if_pos hfails, if_pos hfails]
      rfl
    · have hnext : (16 + authLength) % 2 ^ 64 = 16 + authLength :=
        Nat.mod_eq_of_lt (by omega)
      rw [if_neg hfails, if_neg hfails, hnext,
        dbxWalk_ok hsize _ _ true (by omega) (by omega)]
      split <;> rfl

theorem nawamDbxValidWalk_tinyDbx :
    ∃ valid, nawamDbxValidWalk tinyDbx = .ok valid ∧
      (valid = true ↔ ∃ first ls, DbxFormat tinyDbx first ls) :=
  nawamDbxValidWalk_iff tinyDbx (by decide +kernel)

end Nawam
