import Nawam.Base.HexFields
import Mathlib.Data.Finset.Card
import Mathlib.Logic.Function.Basic
import Mathlib.Tactic.IntervalCases

/-!
# The slots of toggled ESPs

What has to be remembered to turn a Basic Data partition back into the ESP it
was is the GUID that names it, as a text under one of eight setting names
shared by all drives: `ToggleEsp01` to `ToggleEsp08`. `StoreEspInfo` takes the
first slot that is empty, and otherwise drops the first one. A text that
`GuidToString` wrote is read back by `StringToGuid`, so that a slot holds the
text of a GUID only if it reads as that GUID.
-/

namespace Nawam

/-! ## GUIDs and their text -/

structure Guid where
  data1 : UInt32
  data2 : UInt16
  data3 : UInt16
  data4 : Vector UInt8 8
deriving DecidableEq

def Guid.null : Guid := ⟨0, 0, 0, Vector.replicate 8 0⟩

/-- The fields of the format, `%08X-%04X-%04X-%02X%02X-%02X%02X%02X%02X%02X%02X`
when `bDecorated`, and the same without the dashes otherwise. -/
def guidFormat (bDecorated : Bool) : HexFormat :=
  [(false, 8), (bDecorated, 4), (bDecorated, 4), (bDecorated, 2), (false, 2),
    (bDecorated, 2), (false, 2), (false, 2), (false, 2), (false, 2), (false, 2)]

def Guid.fields (guid : Guid) : List ℕ :=
  [guid.data1.toNat, guid.data2.toNat, guid.data3.toNat,
    guid.data4[0].toNat, guid.data4[1].toNat, guid.data4[2].toNat,
    guid.data4[3].toNat, guid.data4[4].toNat, guid.data4[5].toNat,
    guid.data4[6].toNat, guid.data4[7].toNat]

/-- `GuidToString`; the braces go with the dashes. -/
def guidToString (guid : Guid) (bDecorated : Bool) : List UInt8 :=
  if bDecorated then
    Ascii.lbrace :: printHex (guidFormat true) guid.fields ++ [Ascii.rbrace]
  else printHex (guidFormat false) guid.fields

/-- The fields assigned, each cut to its width. -/
def Guid.ofFields : List ℕ → Guid
  | [d1, d2, d3, b0, b1, b2, b3, b4, b5, b6, b7] =>
      { data1 := .ofNat d1, data2 := .ofNat d2, data3 := .ofNat d3
        data4 := #v[.ofNat b0, .ofNat b1, .ofNat b2, .ofNat b3, .ofNat b4,
          .ofNat b5, .ofNat b6, .ofNat b7] }
  | _ => .null

/-- `str[0] == '{' ? &str[1] : str` -/
def skipBrace : List UInt8 → List UInt8
  | 123 :: rest => rest
  | str => str

/-- `StringToGuid`: `GUID_NULL` unless all eleven fields are read. -/
def stringToGuid (str : List UInt8) : Guid :=
  match scanHexes (guidFormat true) (skipBrace str) with
  | some vs => .ofFields vs
  | none => .null

theorem Guid.fields_fit (guid : Guid) (bDecorated : Bool) :
    List.Forall₂ (fun f v => 0 < f.2 ∧ v < 16 ^ f.2) (guidFormat bDecorated)
      guid.fields := by
  have hbyte (b : UInt8) : b.toNat < 256 := b.toNat_lt
  have hword (b : UInt16) : b.toNat < 65536 := b.toNat_lt
  have hlong (b : UInt32) : b.toNat < 4294967296 := b.toNat_lt
  simp [guidFormat, fields, hbyte, hword, hlong]

theorem Guid.ofFields_fields (guid : Guid) : ofFields guid.fields = guid := by
  obtain ⟨data1, data2, data3, data4⟩ := guid
  simp only [fields, ofFields, UInt32.ofNat_toNat, UInt16.ofNat_toNat,
    UInt8.ofNat_toNat, mk.injEq, true_and]
  ext i hi
  interval_cases i <;> rfl

/-- **A GUID is read back from its text.** -/
theorem stringToGuid_guidToString (guid : Guid) :
    stringToGuid (guidToString guid true) = guid := by
  have hscan := scanHexes_printHex (guid.fields_fit true) [Ascii.rbrace]
  have hbrace : skipBrace (guidToString guid true) =
      printHex (guidFormat true) guid.fields ++ [Ascii.rbrace] := rfl
  rw [stringToGuid, hbrace, hscan]
  exact guid.ofFields_fields

theorem guidToString_ne_nil (guid : Guid) : guidToString guid true ≠ [] := by
  simp [guidToString]

theorem guidToString_injective {g h : Guid}
    (htext : guidToString g true = guidToString h true) : g = h := by
  rw [← stringToGuid_guidToString g, htext, stringToGuid_guidToString]

theorem stringToGuid_nil : stringToGuid [] = .null := by decide

/-! ## The settings -/

/-- The settings, in an `.ini` file or in the registry: a map from names to
texts, where a name that was never written reads as the empty text. -/
structure Settings where
  /-- `ini_file != NULL` -/
  ini : Bool
  value : List UInt8 → List UInt8

/-- `WriteSettingStr`; `set_token_data_file` refuses an empty text. -/
def writeSettingStr (key value : List UInt8) (settings : Settings) : Settings :=
  if settings.ini ∧ value = [] then settings
  else { settings with value := Function.update settings.value key value }

def maxEspToggle : ℕ := 8

/-- `"ToggleEsp%02u"` of an `uint8_t`. -/
def slotKey (index : UInt8) : List UInt8 :=
  let digit (d : ℕ) : UInt8 := .ofNat (48 + d)
  let n := index.toNat
  Ascii.text "ToggleEsp" ++
    if n < 100 then [digit (n / 10), digit (n % 10)]
    else [digit (n / 100), digit (n / 10 % 10), digit (n % 10)]

/-- `for (j = 1; j <= MAX_ESP_TOGGLE; j++)` -/
def espSlots : List UInt8 := [1, 2, 3, 4, 5, 6, 7, 8]

/-- `StoreEspInfo`. Where no slot is empty, every text moves down by one. -/
def storeEspInfo (guid : Guid) (settings : Settings) : Settings :=
  match espSlots.find? fun j => settings.value (slotKey j) = [] with
  | some j => writeSettingStr (slotKey j) (guidToString guid true) settings
  | none =>
      let moved := (espSlots.take (maxEspToggle - 1)).foldl
        (fun s j => writeSettingStr (slotKey j) (s.value (slotKey (j + 1))) s) settings
      writeSettingStr (slotKey 8) (guidToString guid true) moved

def getEspGuid (index : UInt8) (settings : Settings) : Guid :=
  stringToGuid (settings.value (slotKey index))

def clearEspInfo (index : UInt8) (settings : Settings) : Settings :=
  writeSettingStr (slotKey index) [] settings

def Settings.occupied (settings : Settings) : Finset UInt8 :=
  espSlots.toFinset.filter fun j => settings.value (slotKey j) ≠ []

theorem slotKey_number : ∀ index : UInt8,
    numeralFrom 10 0 ((slotKey index).drop 9) = some index.toNat :=
  forall_byte (by decide +kernel)

theorem slotKey_injective : Function.Injective slotKey := by
  intro i j h
  have hnumber := slotKey_number i
  rw [h, slotKey_number j, Option.some.injEq] at hnumber
  exact (UInt8.toNat_inj.mp hnumber).symm

/-- What is written is there, but for an empty text in an `.ini` file. -/
theorem writeSettingStr_eq {value : List UInt8} {s : Settings}
    (h : s.ini = false ∨ value ≠ []) (key : List UInt8) :
    writeSettingStr key value s =
      { s with value := Function.update s.value key value } := by
  refine if_neg fun hrefused => ?_
  rcases h with hini | hne
  · exact Bool.false_ne_true (hini ▸ hrefused.1)
  · exact hne hrefused.2

@[simp] theorem writeSettingStr_ini (key value : List UInt8) (s : Settings) :
    (writeSettingStr key value s).ini = s.ini := by
  unfold writeSettingStr
  split <;> rfl

theorem writeSettingStr_self {value : List UInt8} {s : Settings}
    (h : s.ini = false ∨ value ≠ []) (key : List UInt8) :
    (writeSettingStr key value s).value key = value := by
  rw [writeSettingStr_eq h]
  exact Function.update_self ..

/-- A write to one slot leaves the others alone. -/
theorem writeSettingStr_of_ne {i j : UInt8} (h : i ≠ j) (value : List UInt8)
    (s : Settings) :
    (writeSettingStr (slotKey j) value s).value (slotKey i) = s.value (slotKey i) := by
  unfold writeSettingStr
  split
  case isTrue => rfl
  case isFalse => exact Function.update_of_ne (slotKey_injective.ne h) ..

theorem Settings.mem_occupied {s : Settings} {j : UInt8} :
    j ∈ s.occupied ↔ j ∈ espSlots ∧ s.value (slotKey j) ≠ [] := by
  simp [occupied]

theorem Settings.occupied_of_empty {s : Settings} {j : UInt8} {value : List UInt8}
    (hj : j ∈ espSlots) (hvalue : value ≠ []) :
    occupied (writeSettingStr (slotKey j) value s) = insert j s.occupied := by
  ext i
  rw [mem_occupied, Finset.mem_insert, mem_occupied]
  by_cases hij : i = j
  · subst hij
    simp [writeSettingStr_self (.inr hvalue), hj, hvalue]
  · simp [writeSettingStr_of_ne hij, hij]

theorem Settings.occupied_clear {s : Settings} (hini : s.ini = false) (j : UInt8) :
    occupied (clearEspInfo j s) = s.occupied.erase j := by
  ext i
  rw [mem_occupied, Finset.mem_erase, mem_occupied]
  by_cases hij : i = j
  · subst hij
    simp [clearEspInfo, writeSettingStr_self (.inl hini)]
  · simp [clearEspInfo, writeSettingStr_of_ne hij, hij]

theorem clearEspInfo_of_ini {s : Settings} (hini : s.ini = true) (j : UInt8) :
    clearEspInfo j s = s :=
  if_pos ⟨hini, rfl⟩

/-- **`StoreEspInfo` with room left takes one empty slot**, and touches nothing
else. -/
theorem storeEspInfo_of_room {s : Settings} (guid : Guid)
    (hroom : s.occupied.card < maxEspToggle) :
    ∃ j ∈ espSlots, s.value (slotKey j) = [] ∧
      storeEspInfo guid s = writeSettingStr (slotKey j) (guidToString guid true) s := by
  obtain ⟨j, hj, hempty⟩ : ∃ j ∈ espSlots, s.value (slotKey j) = [] := by
    by_contra hfull
    have hall : s.occupied = espSlots.toFinset :=
      Finset.filter_true_of_mem fun j hj hempty =>
        hfull ⟨j, List.mem_toFinset.mp hj, hempty⟩
    rw [hall] at hroom
    exact absurd hroom (by decide)
  unfold storeEspInfo
  split
  case h_1 i hfind =>
    have hi : s.value (slotKey i) = [] := by simpa using List.find?_some hfind
    exact ⟨i, List.mem_of_find?_eq_some hfind, hi, rfl⟩
  case h_2 hfind =>
    exact absurd (decide_eq_true hempty) (List.find?_eq_none.mp hfind j hj)

end Nawam
