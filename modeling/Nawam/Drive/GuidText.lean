import Nawam.Drive.ToggleEsp

/-!
# What reads as a GUID

`StringToGuid` on any string. `sscanf` counts the fields that match, and a field need not have
all of its digits; so there are strings that are no text of a GUID and are read as one. A string
in which a field is missing reads as `GUID_NULL`, and the search for a partition passes over a
slot that does. So it passes over one that was cleared in the registry; in an `.ini` file the
slot keeps what it had.
-/

namespace Nawam

/-- `StringToGuid`, of NULL as well -/
def stringToGuidOrNull : Option (List UInt8) → Guid
  | none => .null
  | some str => stringToGuid str

def allDigits : HexFormat → List UInt8 → Bool
  | [], _ => true
  | (dash, w) :: format, s =>
      match scanDash dash s with
      | some s => (s.take w).length = w && (s.take w).all (isDigitOf 16) && allDigits format (s.drop w)
      | none => false

/-- The string begins with the text of a GUID, with or without the brace. -/
def hasGuidPrefix (str : List UInt8) : Bool := allDigits (guidFormat true) (skipBrace str)

theorem allDigits_printHex {format : HexFormat} {vs : List ℕ}
    (h : List.Forall₂ (fun f v => 0 < f.2 ∧ v < 16 ^ f.2) format vs) (rest : List UInt8) :
    allDigits format (printHex format vs ++ rest) = true := by
  induction h with
  | nil => rfl
  | @cons f v format vs _ _ ih =>
      obtain ⟨dash, w⟩ := f
      have hdash (s : List UInt8) : scanDash dash ((if dash then [45] else []) ++ s) = some s := by
        cases dash <;> rfl
      have hlength := hexField_length w v
      have hdigits : (hexField w v).all (isDigitOf 16) = true :=
        List.all_eq_true.mpr (isDigitOf_hexField w v)
      rw [printHex, allDigits, List.append_assoc, List.append_assoc, hdash]
      dsimp only
      rw [List.take_left' hlength, List.drop_left' hlength, hdigits, hlength,
        ih, decide_eq_true rfl]
      rfl

theorem hasGuidPrefix_guidToString (g : Guid) : hasGuidPrefix (guidToString g true) = true :=
  allDigits_printHex (g.fields_fit true) [Ascii.rbrace]

/-- A string that `sscanf` does not match to its end -/
theorem stringToGuid_eq_null {str : List UInt8} (h : ¬HexTexts (guidFormat true) (skipBrace str)) :
    stringToGuid str = .null := by
  rw [hexTexts_iff, Bool.not_eq_true, Option.isSome_eq_false_iff, Option.isNone_iff_eq_none] at h
  rw [stringToGuid, h]

/-! ## The search for a partition -/

namespace DriveLayout

def slotMatch (layout : DriveLayout) (settings : Settings) (i : UInt8) : Option ℕ :=
  if getEspGuid i settings = .null then none
  else layout.partitionEntry.findIdx? fun entry => layout.guidOf entry = getEspGuid i settings

theorem findStored_eq (layout : DriveLayout) (settings : Settings) :
    layout.findStored settings = espSlots.findSome? (layout.slotMatch settings) := rfl

theorem slotMatch_clearEspInfo (layout : DriveLayout) {settings : Settings}
    (hini : settings.ini = false) (i : UInt8) :
    layout.slotMatch (clearEspInfo i settings) i = none := by
  have hnull : getEspGuid i (clearEspInfo i settings) = .null := by
    rw [getEspGuid, clearEspInfo, writeSettingStr_self (.inl hini), stringToGuid_nil]
  rw [slotMatch, if_pos hnull]

/-- A partition is found by a slot that was not cleared. -/
theorem findStored_clearEspInfo {layout : DriveLayout} {settings : Settings} {i : UInt8} {k : ℕ}
    (hini : settings.ini = false)
    (h : layout.findStored (clearEspInfo i settings) = some k) :
    ∃ j ∈ espSlots, j ≠ i ∧ layout.slotMatch settings j = some k := by
  rw [findStored_eq] at h
  obtain ⟨j, hj, hmatch⟩ := List.exists_of_findSome?_eq_some h
  have hne : j ≠ i := by
    rintro rfl
    rw [slotMatch_clearEspInfo layout hini] at hmatch
    cases hmatch
  refine ⟨j, hj, hne, ?_⟩
  rw [slotMatch, getEspGuid, clearEspInfo, writeSettingStr_of_ne hne] at hmatch
  exact hmatch

end DriveLayout

/-- A GUID is read from its text, a string without one of the fields reads as `GUID_NULL`, and a
slot that was cleared in the registry names no partition. -/
theorem guidText_roundTrip :
    (∀ g : Guid, stringToGuidOrNull (some (guidToString g true)) = g) ∧
    stringToGuidOrNull none = .null ∧ stringToGuidOrNull (some []) = .null ∧
    (∀ str : List UInt8, ¬HexTexts (guidFormat true) (skipBrace str) →
      stringToGuidOrNull (some str) = .null) ∧
    ∀ (layout : DriveLayout) (settings : Settings) (i : UInt8), settings.ini = false →
      layout.slotMatch (clearEspInfo i settings) i = none ∧
      ∀ k, layout.findStored (clearEspInfo i settings) = some k →
        ∃ j ∈ espSlots, j ≠ i ∧ layout.slotMatch settings j = some k := by
  refine ⟨stringToGuid_guidToString, rfl, stringToGuid_nil, fun _ => stringToGuid_eq_null, ?_⟩
  intro layout settings i hini
  exact ⟨layout.slotMatch_clearEspInfo hini i, fun _ => DriveLayout.findStored_clearEspInfo hini⟩

/-- The text of the GUID of an ESP, without its last field -/
def cutGuidText : List UInt8 := Ascii.text "\x7bC12A7328-F81F-11D2-BA4B-00A0C93EC9\x7d"

/-- A GPT drive whose only partition was its ESP -/
def namedEsp : DriveLayout where
  partitionStyle := .gpt
  signature := 0
  partitionEntry := [⟨0x100000, 0, partitionMicrosoftData, ⟨1, 2, 3, .replicate 8 4⟩⟩]

/-- The registry, with the GUID of that partition in each slot -/
def namingSettings : Settings := ⟨false, fun _ => guidToString ⟨1, 2, 3, .replicate 8 4⟩ true⟩

theorem guidText_roundTrip_cut :
    stringToGuidOrNull (some cutGuidText) = .null ∧
    namedEsp.slotMatch namingSettings 1 = some 0 ∧
    namedEsp.slotMatch (clearEspInfo 1 namingSettings) 1 = none := by
  obtain ⟨-, -, -, hnull, hcleared⟩ := guidText_roundTrip
  refine ⟨hnull cutGuidText ?_, by decide +kernel, (hcleared namedEsp namingSettings 1 rfl).1⟩
  rw [hexTexts_iff]
  decide +kernel

/-- Fields of one digit, with blanks between some of them: not the prefix that the
text of every GUID has -/
theorem guidText_not_exact :
    (∀ g : Guid, hasGuidPrefix (guidToString g true) = true) ∧
    hasGuidPrefix (Ascii.text "1-2-3-4 5-6 7 8 9 A B") = false ∧
    stringToGuidOrNull (some (Ascii.text "1-2-3-4 5-6 7 8 9 A B")) =
      ⟨1, 2, 3, #v[4, 5, 6, 7, 8, 9, 10, 11]⟩ ∧
    (⟨1, 2, 3, #v[4, 5, 6, 7, 8, 9, 10, 11]⟩ : Guid) ≠ .null := by
  refine ⟨hasGuidPrefix_guidToString, ?_, ?_, ?_⟩ <;> decide +kernel

end Nawam
