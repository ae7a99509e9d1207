import Nawam.Format.SizeText
import Nawam.Parser.IniSettings
import Mathlib.Data.Bool.AllAny

/-!
# Volume labels

`ToValidLabel` of `format.c`. The label is widened, compacted where it is, cut,
and put back, by way of `img_report.usb_label`. For FAT every unit outside
ASCII has become an underscore by then, and a label that is mostly underscores
is replaced by the size of the disk. What that is written over was allocated for
the label, and `Label` takes no more bytes than it had.
-/

namespace Nawam

/-! ## Source -/

def utf16Of (cp : ℕ) : List Wchar :=
  if cp < 0x10000 then [.ofNat cp]
  else [.ofNat (0xD800 + (cp - 0x10000) / 1024), .ofNat (0xDC00 + (cp - 0x10000) % 1024)]

/-- Characters in UTF-16, and in UTF-8. -/
def unitsOf (chars : List Char) : List Wchar := chars.flatMap fun c => utf16Of c.toNat

def bytesOf (chars : List Char) : List UInt8 := chars.flatMap fun c => utf8Of c.toNat

structure VolumeLabel where
  chars : List Char
  noNul : ∀ c ∈ chars, c.toNat ≠ 0

structure LabelRun where
  /-- the buffer of `Label` -/
  buffer : List UInt8
  /-- `img_report.usb_label` -/
  usbLabel : List UInt8

def LabelRun.label (out : LabelRun) : List UInt8 := out.buffer.takeWhile (· ≠ 0)

def wcsString (w : List Wchar) : List Wchar := w.takeWhile (· ≠ 0)

/-- `w[k] = c` -/
def storeUnit (w : List Wchar) (k : ℕ) (c : Wchar) : C (List Wchar) :=
  if k < w.length then .ok (w.set k c) else .error .outOfBounds

/-- `L"*?,;:/\\|+=<>[]\""` -/
def unauthorized : List Wchar := [42, 63, 44, 59, 58, 47, 92, 124, 43, 61, 60, 62, 91, 93, 34]

/-- `L"\t."` -/
def toUnderscore : List Wchar := [9, 46]

/-- `toupper`, of what is below 128 -/
def toupper (c : Wchar) : Wchar := if 97 ≤ c ∧ c ≤ 122 then c - 32 else c

/-- What is written for a unit, if anything. -/
def validUnit (fat : Bool) (c : Wchar) : Option Wchar :=
  if fat ∧ 0x80 ≤ c then some 95
  else if fat ∧ c ∈ unauthorized then none
  else if c ∈ toUnderscore then some 95
  else some (if fat then toupper c else c)

/-- The loop that compacts, with so many turns left. -/
def compactLoop (fat : Bool) : ℕ → ℕ → ℕ → List Wchar → C (ℕ × List Wchar)
  | 0, _, _, _ => .error .outOfFuel
  | left + 1, i, k, w =>
      if i < (wcsString w).length then do
        match validUnit fat (← entry w i) with
        | none => compactLoop fat left (i + 1) k w
        | some c => compactLoop fat left (i + 1) (k + 1) (← storeUnit w k c)
      else .ok (k, w)

/-- `if (wcslen(wLabel) > n) wLabel[n] = 0;` -/
def cutUnits (n : ℕ) (w : List Wchar) : C (List Wchar) :=
  if n < (wcsString w).length then storeUnit w n 0 else .ok w

/-- The text that takes the place of a label, in a buffer of 16 bytes. -/
def sizeLabel (diskSize : UInt64) : List Wchar :=
  ((sizeToHumanReadable diskSize).take 15).map fun c => if c = 46 then 95 else c.toUInt16

/-- The loop that copies it, from the `i`-th unit on. -/
def copyUnits : List Wchar → ℕ → List Wchar → C (List Wchar)
  | [], i, w => storeUnit w i 0
  | c :: cs, i, w => do copyUnits cs (i + 1) (← storeUnit w i c)

def fatLabel (diskSize : UInt64) (w : List Wchar) : C (List Wchar) := do
  let w ← cutUnits 11 w
  if (wcsString w).length < 2 * (wcsString w).count 95 then copyUnits (sizeLabel diskSize) 0 w
  else .ok w

def safeStrcp (dst : List UInt8) (dstMax : ℕ) (src : List UInt8) (count : ℕ) :
    C (List UInt8) := do
  store (← copyInto dst 0 (src.take (min count dstMax))) (min count dstMax - 1) 0

/-- The end: `usb_label` has 192 bytes, and `Label` those up to its NUL. -/
def putLabel (label : VolumeLabel) (w : List Wchar) : C LabelRun := do
  let usbLabel := (wcharToUtf8 (wcsString w)).take 191
  let bytes := bytesOf label.chars
  .ok ⟨← safeStrcp (bytes ++ [0]) (bytes.length + 1) (usbLabel ++ [0]) (usbLabel.length + 1),
    usbLabel⟩

def toValidLabel (fat : Bool) (label : VolumeLabel) (diskSize : UInt64) : C LabelRun := do
  let wLabel := unitsOf label.chars ++ [0]
  let compacted ← compactLoop fat wLabel.length 0 0 wLabel
  let w ← storeUnit compacted.2 compacted.1 0
  let w ← if fat then fatLabel diskSize w else cutUnits 32 w
  putLabel label w

/-! ## What a label should be -/

structure IsFatLabel (s : List UInt8) : Prop where
  length_le : s.length ≤ 11
  sevenBit : ∀ c ∈ s, c < 128
  upper : ∀ c ∈ s, ¬(97 ≤ c ∧ c ≤ 122)
  authorized : ∀ c ∈ s, c.toUInt16 ∉ unauthorized ∧ c ≠ 46

/-- A text in UTF-8 of at most so many units of UTF-16. -/
def UnitsAtMost (n : ℕ) (s : List UInt8) : Prop :=
  ∃ chars, s = bytesOf chars ∧ (unitsOf chars).length ≤ n

/-- Every write is inside its buffer, and the label is a valid one and the one
that the boot configuration gets. -/
def LabelRight (fat : Bool) (label : VolumeLabel) (diskSize : UInt64) : Prop :=
  ∃ out, toValidLabel fat label diskSize = .ok out ∧ out.label = out.usbLabel ∧
    if fat then IsFatLabel out.label else UnitsAtMost 32 out.label

namespace VolumeLabel

def fatUnits (label : VolumeLabel) : List Wchar :=
  ((unitsOf label.chars).filterMap (validUnit true)).take 11

/-- More than half of what is left are underscores. -/
def MostlyUnderscores (label : VolumeLabel) : Prop :=
  label.fatUnits.length < 2 * label.fatUnits.count 95

instance (label : VolumeLabel) : Decidable label.MostlyUnderscores := inferInstanceAs (Decidable (_ < _))

end VolumeLabel

/-! ## Buffers of units -/

def Holds (w s : List Wchar) : Prop := 0 ∉ s ∧ ∃ junk, w = s ++ 0 :: junk

variable {w s : List Wchar}

theorem Holds.wcsString_eq (h : Holds w s) : wcsString w = s := by
  obtain ⟨hs, junk, rfl⟩ := h
  rw [wcsString, List.takeWhile_append_of_pos]
  · simp
  · intro c hc
    simpa using fun hzero : c = 0 => hs (hzero ▸ hc)

theorem Holds.length_lt (h : Holds w s) : s.length < w.length := by
  obtain ⟨-, junk, rfl⟩ := h
  simp

theorem storeUnit_at {front back : List Wchar} {b c : Wchar} {k : ℕ} (hk : k = front.length) :
    storeUnit (front ++ b :: back) k c = .ok (front ++ c :: back) := by
  subst hk
  rw [storeUnit, if_pos (by simp), List.set_append_right _ _ le_rfl, Nat.sub_self,
    List.set_cons_zero]

theorem cutUnits_holds (h : Holds w s) (n : ℕ) :
    ∃ w', cutUnits n w = .ok w' ∧ Holds w' (s.take n) ∧ w'.length = w.length := by
  have hstring := h.wcsString_eq
  obtain ⟨hs, junk, rfl⟩ := h
  rw [cutUnits, hstring]
  split
  case isTrue hlt =>
    have hsplit : s ++ 0 :: junk = s.take n ++ s[n] :: (s.drop (n + 1) ++ 0 :: junk) := by
      rw [← List.cons_append, ← List.drop_eq_getElem_cons hlt, ← List.append_assoc,
        List.take_append_drop]
    have htake : n = (s.take n).length := by
      rw [List.length_take]
      omega
    rw [hsplit, storeUnit_at htake]
    exact ⟨_, rfl, ⟨fun hzero => hs (List.mem_of_mem_take hzero), _, rfl⟩, by simp⟩
  case isFalse hge =>
    rw [List.take_of_length_le (Nat.le_of_not_lt hge)]
    exact ⟨_, rfl, ⟨hs, junk, rfl⟩, rfl⟩

/-- A text that is written from the `i`-th unit on has to fit. -/
theorem copyUnits_holds : ∀ (text front back : List Wchar) (b : Wchar),
    0 ∉ front → 0 ∉ text → text.length ≤ back.length →
      ∃ w', copyUnits text front.length (front ++ b :: back) = .ok w' ∧ Holds w' (front ++ text) := by
  intro text
  induction text with
  | nil =>
      intro front back b hfront _ _
      refine ⟨front ++ 0 :: back, ?_, by simpa using hfront, back, by simp⟩
      rw [copyUnits, storeUnit_at rfl]
  | cons c cs ih =>
      intro front back b hfront htext hfits
      rw [List.mem_cons, not_or] at htext
      match back, hfits with
      | b' :: back, hfits =>
          obtain ⟨w', hcopy, hholds⟩ := ih (front ++ [c]) back b'
            (by simp [hfront, htext.1]) htext.2 (Nat.le_of_succ_le_succ hfits)
          rw [copyUnits, storeUnit_at rfl, C.ok_bind]
          simp only [List.append_assoc, List.singleton_append, List.length_append,
            List.length_cons, List.length_nil] at hcopy hholds
          exact ⟨w', hcopy, hholds⟩

/-- What does not fit is written beyond the end. -/
theorem copyUnits_fault : ∀ (text : List Wchar) (i : ℕ) (w : List Wchar),
    w.length ≤ text.length + i → copyUnits text i w = .error .outOfBounds := by
  intro text
  induction text with
  | nil =>
      intro i w hlong
      rw [copyUnits, storeUnit, if_neg (by simpa using hlong)]
  | cons c cs ih =>
      intro i w hlong
      rw [copyUnits, storeUnit]
      split
      case isTrue =>
        refine ih (i + 1) _ ?_
        rw [List.length_set]
        rw [List.length_cons] at hlong
        omega
      case isFalse => rfl

/-! ## Compacting -/

variable {fat : Bool} {c d : Wchar}

theorem toupper_toNat (c : Wchar) :
    (toupper c).toNat = if 97 ≤ c.toNat ∧ c.toNat ≤ 122 then c.toNat - 32 else c.toNat := by
  have h97 : (97 : Wchar).toNat = 97 := rfl
  have h122 : (122 : Wchar).toNat = 122 := rfl
  have h32 : (32 : Wchar).toNat = 32 := rfl
  simp only [toupper, UInt16.le_iff_toNat_le, h97, h122]
  split
  case isTrue hlower => rw [UInt16.toNat_sub_of_le _ _ (by rw [UInt16.le_iff_toNat_le]; omega), h32]
  case isFalse => rfl

theorem validUnit_ne_zero (hc : c ≠ 0) (h : validUnit fat c = some d) : d ≠ 0 := by
  unfold validUnit at h
  split_ifs at h with hext hunauth hunder hfat
  · rw [← Option.some.inj h]
    decide
  · rw [← Option.some.inj h]
    decide
  · rw [← Option.some.inj h, Ne, ← UInt16.toNat_inj, toupper_toNat]
    have hpos : c.toNat ≠ 0 := fun hzero => hc (UInt16.toNat_inj.mp hzero)
    have hzero : (0 : Wchar).toNat = 0 := rfl
    split_ifs <;> omega
  · exact Option.some.inj h ▸ hc

/-- The loop leaves in front what is valid of the string, whose place it is. -/
theorem compactLoop_eq : ∀ (rest out junk : List Wchar) (left : ℕ),
    rest.length < left → 0 ∉ out → 0 ∉ junk → 0 ∉ rest →
      ∃ junk', compactLoop fat left (out.length + junk.length) out.length
          (out ++ (junk ++ (rest ++ [0]))) =
        .ok ((out ++ rest.filterMap (validUnit fat)).length,
          out ++ rest.filterMap (validUnit fat) ++ (junk' ++ [0])) ∧
        (rest.filterMap (validUnit fat)).length + junk'.length = junk.length + rest.length := by
  intro rest
  induction rest with
  | nil =>
      intro out junk left hleft hout hjunk _
      have hholds : Holds (out ++ (junk ++ ([] ++ [0]))) (out ++ junk) :=
        ⟨by simp [hout, hjunk], [], by simp⟩
      obtain ⟨left, rfl⟩ := Nat.exists_eq_succ_of_ne_zero hleft.ne'
      rw [compactLoop, hholds.wcsString_eq, if_neg (by simp)]
      exact ⟨junk, by simp⟩
  | cons c rest ih =>
      intro out junk left hleft hout hjunk hrest
      obtain ⟨left, rfl⟩ := Nat.exists_eq_succ_of_ne_zero (Nat.ne_of_gt (Nat.zero_lt_of_lt hleft))
      rw [List.length_cons, Nat.succ_lt_succ_iff] at hleft
      rw [List.mem_cons, not_or] at hrest
      have hholds : Holds (out ++ (junk ++ (c :: rest ++ [0]))) (out ++ (junk ++ c :: rest)) :=
        ⟨by simp [hout, hjunk, hrest.1, hrest.2], [], by simp⟩
      have hentry : entry (out ++ (junk ++ (c :: rest ++ [0]))) (out.length + junk.length) =
          .ok c := by
        simp [entry]
      rw [compactLoop, hholds.wcsString_eq, if_pos (by simp), hentry, C.ok_bind]
      cases hvalid : validUnit fat c with
      | none =>
          -- the unit is passed over
          obtain ⟨junk', hloop, hlength⟩ := ih out (junk ++ [c]) left hleft hout
            (by simp [hjunk, hrest.1]) hrest.2
          refine ⟨junk', by simpa [hvalid, Nat.add_assoc] using hloop, ?_⟩
          rw [List.filterMap_cons_none hvalid, hlength, List.length_append, List.length_singleton,
            List.length_cons]
          omega
      | some d =>
          -- the first unit of what was passed over, or this one, is overwritten
          obtain ⟨b, more, hmore⟩ : ∃ b more, junk ++ [c] = b :: more :=
            List.exists_cons_of_ne_nil (by simp)
          have hmoreNul : 0 ∉ more := by
            intro hzero
            have hmem : 0 ∈ junk ++ [c] := hmore ▸ List.mem_cons_of_mem b hzero
            simp [hjunk, hrest.1] at hmem
          have hlength : junk.length = more.length := by
            simpa using congrArg List.length hmore
          have hshape : out ++ (junk ++ (c :: rest ++ [0])) = out ++ b :: (more ++ (rest ++ [0])) := by
            rw [← List.cons_append, ← hmore]
            simp
          obtain ⟨junk', hloop, hlength'⟩ := ih (out ++ [d]) more left hleft
            (by simpa [hout] using (validUnit_ne_zero (Ne.symm hrest.1) hvalid).symm)
            hmoreNul hrest.2
          refine ⟨junk', ?_, ?_⟩
          · dsimp only
            rw [hshape, storeUnit_at rfl]
            simpa [hvalid, hlength, Nat.add_assoc, Nat.add_comm 1] using hloop
          · rw [List.filterMap_cons_some hvalid, List.length_cons, List.length_cons, hlength]
            omega

/-! ## UTF-16 and UTF-8 -/

theorem char_range (c : Char) : c.toNat < 0xD800 ∨ 0xDFFF < c.toNat ∧ c.toNat < 0x110000 :=
  c.valid

theorem ofNat_toNat_of_lt {n : ℕ} (h : n < 0x10000) : (UInt16.ofNat n).toNat = n :=
  UInt16.toNat_ofNat_of_lt' h

/-- A unit that no pair begins with stands for itself. -/
theorem wcharToUtf8_cons (h : ¬(0xD800 ≤ c.toNat ∧ c.toNat < 0xDC00)) (s : List Wchar) :
    wcharToUtf8 (c :: s) = utf8OfUnit c ++ wcharToUtf8 s := by
  have hlow : (0xD800 : Wchar).toNat = 0xD800 := rfl
  have hhigh : (0xDC00 : Wchar).toNat = 0xDC00 := rfl
  match s with
  | [] => simp [wcharToUtf8]
  | lo :: s =>
      rw [wcharToUtf8, if_neg]
      rintro ⟨hle, hlt, -⟩
      rw [UInt16.le_iff_toNat_le, hlow] at hle
      rw [UInt16.lt_iff_toNat_lt, hhigh] at hlt
      exact h ⟨hle, hlt⟩

theorem utf8OfUnit_eq {n : ℕ} (h : n < 0xD800 ∨ 0xDFFF < n) (hlt : n < 0x10000) :
    utf8OfUnit (.ofNat n) = utf8Of n := by
  have hlow : (0xD800 : Wchar).toNat = 0xD800 := rfl
  have hhigh : (0xE000 : Wchar).toNat = 0xE000 := rfl
  rw [utf8OfUnit, if_neg, ofNat_toNat_of_lt hlt]
  rw [UInt16.le_iff_toNat_le, UInt16.lt_iff_toNat_lt, ofNat_toNat_of_lt hlt, hlow, hhigh]
  omega

/-- **A character goes from UTF-16 to UTF-8.** -/
theorem wcharToUtf8_utf16Of (a : Char) (s : List Wchar) :
    wcharToUtf8 (utf16Of a.toNat ++ s) = utf8Of a.toNat ++ wcharToUtf8 s := by
  have hrange := char_range a
  unfold utf16Of
  split
  case isTrue hlt =>
    rw [List.singleton_append, wcharToUtf8_cons, utf8OfUnit_eq (by omega) hlt]
    rw [ofNat_toNat_of_lt hlt]
    omega
  case isFalse hge =>
    have hlow : (0xD800 : Wchar).toNat = 0xD800 := rfl
    have hmid : (0xDC00 : Wchar).toNat = 0xDC00 := rfl
    have hhigh : (0xE000 : Wchar).toNat = 0xE000 := rfl
    have hhi := ofNat_toNat_of_lt (n := 0xD800 + (a.toNat - 0x10000) / 1024) (by omega)
    have hlo := ofNat_toNat_of_lt (n := 0xDC00 + (a.toNat - 0x10000) % 1024) (by omega)
    have hpair : 0x10000 + (0xD800 + (a.toNat - 0x10000) / 1024 - 0xD800) * 1024 +
        (0xDC00 + (a.toNat - 0x10000) % 1024 - 0xDC00) = a.toNat := by
      omega
    rw [List.cons_append, List.singleton_append, wcharToUtf8, if_pos]
    · rw [hhi, hlo]
      exact congrArg (fun cp => utf8Of cp ++ wcharToUtf8 s) hpair
    · simp only [UInt16.le_iff_toNat_le, UInt16.lt_iff_toNat_lt, hhi, hlo, hlow, hmid, hhigh]
      omega

theorem utf8Of_length (cp : ℕ) : (utf16Of cp).length ≤ (utf8Of cp).length ∧
    (utf8Of cp).length ≤ 3 * (utf16Of cp).length := by
  unfold utf16Of utf8Of
  split_ifs <;> first | omega | simp

theorem unitsOf_length_le (chars : List Char) : (unitsOf chars).length ≤ (bytesOf chars).length := by
  induction chars with
  | nil => exact le_rfl
  | cons a chars ih =>
      simp only [unitsOf, bytesOf, List.flatMap_cons, List.length_append] at ih ⊢
      exact Nat.add_le_add (utf8Of_length a.toNat).1 ih

theorem bytesOf_length_le (chars : List Char) :
    (bytesOf chars).length ≤ 3 * (unitsOf chars).length := by
  induction chars with
  | nil => exact le_rfl
  | cons a chars ih =>
      simp only [unitsOf, bytesOf, List.flatMap_cons, List.length_append] at ih ⊢
      have := (utf8Of_length a.toNat).2
      omega

theorem utf16Of_noNul {n : ℕ} (hn : n ≠ 0) (hlt : n < 0x110000) : 0 ∉ utf16Of n := by
  have hzero : (0 : Wchar).toNat = 0 := rfl
  unfold utf16Of
  intro hmem
  split at hmem
  case isTrue hbmp =>
    have := congrArg UInt16.toNat (List.mem_singleton.mp hmem)
    rw [ofNat_toNat_of_lt hbmp] at this
    omega
  case isFalse =>
    rcases List.mem_pair.mp hmem with h | h
    · have := congrArg UInt16.toNat h
      rw [ofNat_toNat_of_lt (by omega)] at this
      omega
    · have := congrArg UInt16.toNat h
      rw [ofNat_toNat_of_lt (by omega)] at this
      omega

theorem VolumeLabel.unitsOf_noNul (label : VolumeLabel) : 0 ∉ unitsOf label.chars := by
  intro hmem
  obtain ⟨a, ha, hunit⟩ := List.mem_flatMap.mp hmem
  have hrange := char_range a
  exact utf16Of_noNul (label.noNul a ha) (by omega) hunit

theorem ofNat_ne_zero {n : ℕ} (hn : 0 < n) (hlt : n < 256) : (0 : UInt8) ≠ .ofNat n := by
  rw [Ne, ← UInt8.toNat_inj, UInt8.toNat_ofNat_of_lt' hlt]
  exact hn.ne

theorem utf8Of_noNul {n : ℕ} (hn : n ≠ 0) (hlt : n < 0x110000) : 0 ∉ utf8Of n := by
  unfold utf8Of
  split_ifs <;> simp only [List.mem_cons, List.not_mem_nil, or_false, not_or]
  · exact ofNat_ne_zero (by omega) (by omega)
  · exact ⟨ofNat_ne_zero (by omega) (by omega), ofNat_ne_zero (by omega) (by omega)⟩
  · exact ⟨ofNat_ne_zero (by omega) (by omega), ofNat_ne_zero (by omega) (by omega),
      ofNat_ne_zero (by omega) (by omega)⟩
  · exact ⟨ofNat_ne_zero (by omega) (by omega), ofNat_ne_zero (by omega) (by omega),
      ofNat_ne_zero (by omega) (by omega), ofNat_ne_zero (by omega) (by omega)⟩

theorem bytesOf_noNul {chars : List Char} (h : ∀ a ∈ chars, a.toNat ≠ 0) : 0 ∉ bytesOf chars := by
  intro hmem
  obtain ⟨a, ha, hbyte⟩ := List.mem_flatMap.mp hmem
  have hrange := char_range a
  exact utf8Of_noNul (h a ha) (by omega) hbyte

/-! ## Cutting in UTF-16 -/

/-- The first so many units of a text; half a pair is read as U+FFFD. -/
def cutChars : ℕ → List Char → List Char
  | _, [] => []
  | n, a :: chars =>
      if (utf16Of a.toNat).length ≤ n then a :: cutChars (n - (utf16Of a.toNat).length) chars
      else if n = 0 then [] else [Char.ofNat 0xFFFD]

theorem wcharToUtf8_half (a : Char) {n : ℕ} (hn : n ≠ 0) (h : ¬(utf16Of a.toNat).length ≤ n) :
    wcharToUtf8 ((utf16Of a.toNat).take n) = utf8Of 0xFFFD := by
  have hrange := char_range a
  have hlow : (0xD800 : Wchar).toNat = 0xD800 := rfl
  have hhigh : (0xE000 : Wchar).toNat = 0xE000 := rfl
  unfold utf16Of at h ⊢
  split at h
  case isTrue => exact absurd (Nat.pos_of_ne_zero hn) h
  case isFalse hge =>
    rw [if_neg hge]
    obtain rfl : n = 1 := by
      simp only [List.length_cons, List.length_nil] at h
      omega
    have hhi := ofNat_toNat_of_lt (n := 0xD800 + (a.toNat - 0x10000) / 1024) (by omega)
    show utf8OfUnit _ = _
    rw [utf8OfUnit, if_pos]
    rw [UInt16.le_iff_toNat_le, UInt16.lt_iff_toNat_lt, hhi, hlow, hhigh]
    omega

theorem wcharToUtf8_take : ∀ (chars : List Char) (n : ℕ),
    wcharToUtf8 ((unitsOf chars).take n) = bytesOf (cutChars n chars) := by
  intro chars
  induction chars with
  | nil => exact fun n => by simp [unitsOf, bytesOf, cutChars, wcharToUtf8]
  | cons a chars ih =>
      intro n
      have hcons : unitsOf (a :: chars) = utf16Of a.toNat ++ unitsOf chars := List.flatMap_cons
      rw [cutChars, hcons, List.take_append]
      split_ifs with hfits hnone
      · rw [List.take_of_length_le hfits, wcharToUtf8_utf16Of, ih]
        rfl
      · simp [hnone, wcharToUtf8, bytesOf]
      · rw [Nat.sub_eq_zero_of_le (Nat.le_of_not_le hfits), List.take_zero, List.append_nil,
          wcharToUtf8_half a hnone hfits]
        rfl

theorem cutChars_units : ∀ (chars : List Char) (n : ℕ), (unitsOf (cutChars n chars)).length ≤ n := by
  intro chars
  induction chars with
  | nil => exact fun n => Nat.zero_le n
  | cons a chars ih =>
      intro n
      rw [cutChars]
      split_ifs with hfits hnone
      · have hrest := ih (n - (utf16Of a.toNat).length)
        simp only [unitsOf, List.flatMap_cons, List.length_append] at hrest ⊢
        omega
      · exact Nat.zero_le n
      · exact Nat.pos_of_ne_zero hnone

/-- Cutting makes a text no longer: the half that is read as U+FFFD had four
bytes. -/
theorem cutChars_bytes : ∀ (chars : List Char) (n : ℕ),
    (bytesOf (cutChars n chars)).length ≤ (bytesOf chars).length := by
  intro chars
  induction chars with
  | nil => exact fun n => le_rfl
  | cons a chars ih =>
      intro n
      have hcons : bytesOf (a :: chars) = utf8Of a.toNat ++ bytesOf chars := List.flatMap_cons
      rw [cutChars, hcons, List.length_append]
      split_ifs with hfits hnone
      · have hrest := ih (n - (utf16Of a.toNat).length)
        simp only [bytesOf, List.flatMap_cons, List.length_append] at hrest ⊢
        omega
      · exact Nat.zero_le _
      · have hfour : 3 ≤ (utf8Of a.toNat).length := by
          have hbmp : ¬a.toNat < 0x10000 := by
            intro hbmp
            rw [utf16Of, if_pos hbmp] at hfits
            exact hfits (Nat.pos_of_ne_zero hnone)
          rw [utf8Of, if_neg (by omega), if_neg (by omega), if_neg hbmp]
          exact Nat.le_succ 3
        exact hfour.trans (Nat.le_add_right _ _)

theorem cutChars_noNul {chars : List Char} (h : ∀ a ∈ chars, a.toNat ≠ 0) :
    ∀ n, ∀ a ∈ cutChars n chars, a.toNat ≠ 0 := by
  induction chars with
  | nil => exact fun n a ha => absurd ha List.not_mem_nil
  | cons b chars ih =>
      intro n a ha
      rw [cutChars] at ha
      split_ifs at ha with hfits hnone
      · rcases List.mem_cons.mp ha with rfl | ha
        · exact h a List.mem_cons_self
        · exact ih (fun d hd => h d (List.mem_cons_of_mem b hd)) _ a ha
      · exact absurd ha List.not_mem_nil
      · rw [List.mem_singleton.mp ha]
        decide

/-! ## A label for NTFS -/

/-- What the loop makes of a character where every unit is kept. -/
def underscored (a : Char) : Char := if a.toNat = 9 ∨ a.toNat = 46 then '_' else a

theorem validUnit_ofNat {n : ℕ} (hlt : n < 0x10000) (h : ¬(n = 9 ∨ n = 46)) :
    validUnit false (.ofNat n) = some (.ofNat n) := by
  have hnot : UInt16.ofNat n ∉ toUnderscore := by
    simp only [toUnderscore, List.mem_cons, List.not_mem_nil, or_false, ← UInt16.toNat_inj,
      ofNat_toNat_of_lt hlt]
    exact h
  simp [validUnit, hnot]

theorem validUnits_utf16Of (a : Char) :
    (utf16Of a.toNat).filterMap (validUnit false) = utf16Of (underscored a).toNat := by
  have hrange := char_range a
  unfold underscored
  split_ifs with hunder
  · rcases hunder with h | h <;> rw [h] <;> decide
  · unfold utf16Of
    split_ifs with hbmp
    · simp [validUnit_ofNat hbmp hunder]
    · have hhi := validUnit_ofNat (n := 0xD800 + (a.toNat - 0x10000) / 1024) (by omega) (by omega)
      have hlo := validUnit_ofNat (n := 0xDC00 + (a.toNat - 0x10000) % 1024) (by omega) (by omega)
      rw [List.filterMap_cons_some hhi, List.filterMap_cons_some hlo, List.filterMap_nil]

theorem validUnits_false (chars : List Char) :
    (unitsOf chars).filterMap (validUnit false) = unitsOf (chars.map underscored) := by
  induction chars with
  | nil => rfl
  | cons a chars ih =>
      simp only [unitsOf, List.flatMap_cons, List.filterMap_append, List.map_cons] at ih ⊢
      rw [validUnits_utf16Of, ih]

theorem underscored_bytes (chars : List Char) :
    (bytesOf (chars.map underscored)).length ≤ (bytesOf chars).length := by
  induction chars with
  | nil => exact le_rfl
  | cons a chars ih =>
      simp only [bytesOf, List.map_cons, List.flatMap_cons, List.length_append] at ih ⊢
      refine Nat.add_le_add ?_ ih
      unfold underscored
      split_ifs with hunder
      · exact List.length_pos_of_ne_nil (utf8Of_ne_nil a.toNat)
      · exact le_rfl

/-! ## Putting the label back -/

theorem takeWhile_string {s rest : List UInt8} (hs : 0 ∉ s) :
    (s ++ 0 :: rest).takeWhile (· ≠ 0) = s := by
  rw [List.takeWhile_append_of_pos]
  · simp
  · intro c hc
    simpa using fun hzero : c = 0 => hs (hzero ▸ hc)

/-- Of a string that is put into a buffer, what fits is there afterwards. -/
theorem safeStrcp_string (dst : List UInt8) {src : List UInt8} (hsrc : 0 ∉ src) :
    ∃ buffer, safeStrcp (dst ++ [0]) (dst.length + 1) (src ++ [0]) (src.length + 1) = .ok buffer ∧
      buffer.takeWhile (· ≠ 0) = src.take dst.length := by
  have hmin : min (src.length + 1) (dst.length + 1) = min src.length dst.length + 1 :=
    Nat.succ_min_succ _ _
  have hlt : min src.length dst.length < (src ++ [0]).length := by
    rw [List.length_append, List.length_singleton]
    omega
  have htake : (src ++ [0]).take (min src.length dst.length) = src.take dst.length := by
    rw [List.take_append_of_le_length (Nat.min_le_left _ _)]
    exact List.take_eq_take_iff.mpr (by omega)
  have hlength : min src.length dst.length = (src.take dst.length).length := by
    rw [List.length_take, Nat.min_comm]
  rw [safeStrcp, hmin, Nat.add_sub_cancel, List.take_succ_eq_append_getElem hlt, htake,
    copyInto_of_le (by simp), C.ok_bind, store, if_pos (by simp; omega)]
  refine ⟨_, rfl, ?_⟩
  generalize (src ++ [0])[min src.length dst.length] = last
  rw [List.take_zero, List.nil_append, List.append_assoc, List.singleton_append, hlength,
    List.set_append_right _ _ le_rfl, Nat.sub_self, List.set_cons_zero]
  exact takeWhile_string fun hzero => hsrc (List.mem_of_mem_take hzero)

/-- The label is as much of the string as there were bytes, `usb_label` all of
it. -/
theorem putLabel_ok (label : VolumeLabel) (h : Holds w s) (hnul : 0 ∉ wcharToUtf8 s)
    (hshort : (wcharToUtf8 s).length ≤ 191) :
    ∃ out, putLabel label w = .ok out ∧ out.usbLabel = wcharToUtf8 s ∧
      out.label = (wcharToUtf8 s).take (bytesOf label.chars).length := by
  obtain ⟨buffer, hcopy, hlabel⟩ := safeStrcp_string (bytesOf label.chars) hnul
  refine ⟨⟨buffer, wcharToUtf8 s⟩, ?_, rfl, hlabel⟩
  rw [putLabel, h.wcsString_eq, List.take_of_length_le hshort, hcopy]
  rfl

/-- The loop, and the end of the string behind it. -/
theorem compacted_holds (fat : Bool) (label : VolumeLabel) :
    ∃ compacted w, compactLoop fat (unitsOf label.chars ++ [0]).length 0 0
        (unitsOf label.chars ++ [0]) = .ok compacted ∧
      storeUnit compacted.2 compacted.1 0 = .ok w ∧
      Holds w ((unitsOf label.chars).filterMap (validUnit fat)) ∧
      w.length = (unitsOf label.chars).length + 1 := by
  have hnul := label.unitsOf_noNul
  obtain ⟨junk, hloop, hlength⟩ := @compactLoop_eq fat (unitsOf label.chars) [] []
    (unitsOf label.chars ++ [0]).length (by simp) List.not_mem_nil List.not_mem_nil hnul
  obtain ⟨b, more, hmore⟩ : ∃ b more, junk ++ [0] = b :: more :=
    List.exists_cons_of_ne_nil (by simp)
  have hvalid : 0 ∉ (unitsOf label.chars).filterMap (validUnit fat) := by
    intro hzero
    obtain ⟨c, hc, hsome⟩ := List.mem_filterMap.mp hzero
    exact validUnit_ne_zero (fun h => hnul (h ▸ hc)) hsome rfl
  have hmoreLength : junk.length = more.length := by
    simpa using congrArg List.length hmore
  refine ⟨_, _, hloop, ?_, ⟨hvalid, more, rfl⟩, ?_⟩
  · rw [hmore]
    exact storeUnit_at (by simp)
  · simp only [List.length_append, List.length_cons, List.length_nil] at hlength ⊢
    omega

/-- **A label for NTFS is always right.** -/
theorem toValidLabel_ntfs (label : VolumeLabel) (diskSize : UInt64) :
    LabelRight false label diskSize := by
  obtain ⟨compacted, w, hloop, hstore, hholds, -⟩ := compacted_holds false label
  obtain ⟨w', hcut, hholds', -⟩ := cutUnits_holds hholds 32
  rw [validUnits_false] at hholds'
  have hbytes := wcharToUtf8_take (label.chars.map underscored) 32
  have hnul : 0 ∉ bytesOf (cutChars 32 (label.chars.map underscored)) := by
    refine bytesOf_noNul (cutChars_noNul ?_ 32)
    intro a ha
    obtain ⟨b, hb, rfl⟩ := List.mem_map.mp ha
    unfold underscored
    split_ifs
    · decide
    · exact label.noNul b hb
  have hunits := cutChars_units (label.chars.map underscored) 32
  have hshort : (bytesOf (cutChars 32 (label.chars.map underscored))).length ≤ 96 :=
    (bytesOf_length_le _).trans (by omega)
  have hfits : (bytesOf (cutChars 32 (label.chars.map underscored))).length ≤
      (bytesOf label.chars).length :=
    (cutChars_bytes _ _).trans (underscored_bytes _)
  obtain ⟨out, hput, husb, hlabel⟩ := putLabel_ok label hholds' (hbytes ▸ hnul)
    (hbytes ▸ hshort.trans (by decide))
  rw [hbytes, List.take_of_length_le hfits] at hlabel
  rw [hbytes] at husb
  refine ⟨out, ?_, hlabel.trans husb.symm, _, hlabel, hunits⟩
  simp only [toValidLabel, hloop, hstore, hcut, C.ok_bind, Bool.false_eq_true, if_false]
  exact hput

/-! ## A label for FAT -/

structure IsFatUnit (c : Wchar) : Prop where
  sevenBit : c.toNat < 128
  upper : ¬(97 ≤ c.toNat ∧ c.toNat ≤ 122)
  authorized : c ∉ unauthorized ∧ c ≠ 46

/-- The unauthorized ones are not letters, digits, blanks or underscores. -/
theorem unauthorized_range : ∀ c ∈ unauthorized,
    c.toNat ≠ 32 ∧ ¬(48 ≤ c.toNat ∧ c.toNat ≤ 57) ∧ ¬(65 ≤ c.toNat ∧ c.toNat ≤ 90) ∧
      c.toNat ≠ 95 := by
  intro c hc
  simp only [unauthorized, List.mem_cons, List.not_mem_nil, or_false] at hc
  rcases hc with rfl | rfl | rfl | rfl | rfl | rfl | rfl | rfl | rfl | rfl | rfl | rfl | rfl |
    rfl | rfl <;> decide

/-- Letters in upper case, digits, blanks and underscores are fine. -/
theorem isFatUnit_of_plain {c : Wchar} (h : c.toNat = 32 ∨ 48 ≤ c.toNat ∧ c.toNat ≤ 57 ∨
    65 ≤ c.toNat ∧ c.toNat ≤ 90 ∨ c.toNat = 95) : IsFatUnit c := by
  refine ⟨by omega, by omega, ?_, ?_⟩
  · intro hmem
    have := unauthorized_range c hmem
    omega
  · rintro rfl
    have hdot : (46 : Wchar).toNat = 46 := rfl
    omega

theorem validUnit_isFatUnit (h : validUnit true c = some d) : IsFatUnit d := by
  have h128 : (0x80 : Wchar).toNat = 128 := rfl
  unfold validUnit at h
  split_ifs at h with hext hunauth hunder hfat
  · exact Option.some.inj h ▸ isFatUnit_of_plain (.inr (.inr (.inr rfl)))
  · exact Option.some.inj h ▸ isFatUnit_of_plain (.inr (.inr (.inr rfl)))
  · have hlt : c.toNat < 128 := by
      simpa [UInt16.le_iff_toNat_le, h128] using hext
    have hcase := toupper_toNat c
    obtain rfl : toupper c = d := by simpa using h
    by_cases hlower : 97 ≤ c.toNat ∧ c.toNat ≤ 122
    · rw [if_pos hlower] at hcase
      exact isFatUnit_of_plain (.inr (.inr (.inl (by omega))))
    · rw [if_neg hlower] at hcase
      rw [UInt16.toNat_inj.mp hcase]
      refine ⟨hlt, hlower, by simpa using hunauth, ?_⟩
      rintro rfl
      exact hunder (by simp [toUnderscore])
  · exact absurd rfl hfat

theorem toUInt8_toNat {c : Wchar} (h : c.toNat < 128) : c.toUInt8.toNat = c.toNat := by
  rw [UInt16.toNat_toUInt8]
  omega

theorem toUInt8_toUInt16 {c : Wchar} (h : c.toNat < 128) : c.toUInt8.toUInt16 = c := by
  rw [← UInt16.toNat_inj, UInt8.toNat_toUInt16, toUInt8_toNat h]

theorem wcharToUtf8_of_ascii {s : List Wchar} (h : ∀ c ∈ s, c.toNat < 128) :
    wcharToUtf8 s = s.map (·.toUInt8) := by
  have hback : utf8ToWchar (s.map (·.toUInt8)) = s := by
    rw [utf8ToWchar, List.map_map]
    exact (List.map_congr_left fun c hc => toUInt8_toUInt16 (h c hc)).trans (List.map_id s)
  have hascii : ∀ b ∈ s.map (·.toUInt8), b < 128 := by
    intro b hb
    obtain ⟨c, hc, rfl⟩ := List.mem_map.mp hb
    rw [UInt8.lt_iff_toNat_lt, toUInt8_toNat (h c hc)]
    exact h c hc
  calc wcharToUtf8 s = wcharToUtf8 (utf8ToWchar (s.map (·.toUInt8))) := by rw [hback]
    _ = s.map (·.toUInt8) := wcharToUtf8_ascii hascii

theorem isFatLabel_of_units {s : List Wchar} (hlength : s.length ≤ 11)
    (h : ∀ c ∈ s, IsFatUnit c) : IsFatLabel (s.map (·.toUInt8)) := by
  have hbyte : ∀ b ∈ s.map (·.toUInt8), ∃ c, IsFatUnit c ∧ b.toNat = c.toNat ∧ b.toUInt16 = c := by
    intro b hb
    obtain ⟨c, hc, rfl⟩ := List.mem_map.mp hb
    have hunit := h c hc
    exact ⟨c, hunit, toUInt8_toNat hunit.sevenBit, toUInt8_toUInt16 hunit.sevenBit⟩
  refine ⟨by rwa [List.length_map], ?_, ?_, ?_⟩
  · intro b hb
    obtain ⟨c, hunit, hnat, -⟩ := hbyte b hb
    rw [UInt8.lt_iff_toNat_lt, hnat]
    exact hunit.sevenBit
  · intro b hb
    obtain ⟨c, hunit, hnat, -⟩ := hbyte b hb
    rw [UInt8.le_iff_toNat_le, UInt8.le_iff_toNat_le, hnat]
    exact hunit.upper
  · intro b hb
    obtain ⟨c, hunit, -, rfl⟩ := hbyte b hb
    exact ⟨hunit.authorized.1, fun hdot => hunit.authorized.2 (hdot ▸ rfl)⟩

theorem sizeUnits_tail {unit : List UInt8} (h : unit ∈ sizeUnits.tail) :
    unit.length = 2 ∧ ∀ c ∈ unit, 65 ≤ c.toNat ∧ c.toNat ≤ 90 := by
  simp only [sizeUnits, List.tail_cons, List.mem_cons, List.not_mem_nil, or_false] at h
  rcases h with rfl | rfl | rfl | rfl | rfl <;>
    exact ⟨rfl, List.forall_mem_cons.mpr ⟨by decide, List.forall_mem_singleton.mpr (by decide)⟩⟩

theorem sizeToHumanReadable_length (diskSize : UInt64) :
    (sizeToHumanReadable diskSize).length ≤ 10 := by
  obtain ⟨number, unit, htext, hnumber, hunit⟩ := sizeToHumanReadable_parts diskSize
  have hseven := hnumber.length_le
  rw [htext, List.length_append, List.length_cons]
  rcases hunit with ⟨-, rfl, hfour⟩ | ⟨-, hunit⟩
  · have hbytes : (Ascii.text "bytes").length = 5 := rfl
    omega
  · have htwo := (sizeUnits_tail hunit).1
    omega

theorem sizeLabel_eq (diskSize : UInt64) : sizeLabel diskSize =
    (sizeToHumanReadable diskSize).map fun c => if c = 46 then 95 else c.toUInt16 := by
  have hlength := sizeToHumanReadable_length diskSize
  rw [sizeLabel, List.take_of_length_le (by omega)]

theorem sizeLabel_isFatUnit {diskSize : UInt64} (h : 1024 ≤ diskSize) :
    ∀ c ∈ sizeLabel diskSize, IsFatUnit c := by
  obtain ⟨number, unit, htext, hnumber, hunit⟩ := sizeToHumanReadable_parts diskSize
  rcases hunit with ⟨hlt, -, -⟩ | ⟨-, hunit⟩
  · exact absurd h (UInt64.not_le.mpr hlt)
  intro c hc
  rw [sizeLabel_eq, htext] at hc
  obtain ⟨b, hb, rfl⟩ := List.mem_map.mp hc
  split
  case isTrue => exact isFatUnit_of_plain (.inr (.inr (.inr rfl)))
  case isFalse hdot =>
    have hnat : b.toUInt16.toNat = b.toNat := UInt8.toNat_toUInt16 b
    rcases List.mem_append.mp hb with hb | hb
    · have hdigit := (hnumber.plain b hb).resolve_right hdot
      simp only [isDigit, Bool.and_eq_true, decide_eq_true_eq, UInt8.le_iff_toNat_le] at hdigit
      exact isFatUnit_of_plain (.inr (.inl (hnat ▸ hdigit)))
    · rcases List.mem_cons.mp hb with rfl | hb
      · exact isFatUnit_of_plain (.inl rfl)
      · have hletter := (sizeUnits_tail hunit).2 b hb
        exact isFatUnit_of_plain (.inr (.inr (.inl (hnat ▸ hletter))))

/-- The text for less than 1 KB is in lower case. -/
theorem sizeLabel_bytes {diskSize : UInt64} (h : diskSize < 1024) : 98 ∈ sizeLabel diskSize := by
  obtain ⟨number, unit, htext, -, hunit⟩ := sizeToHumanReadable_parts diskSize
  rcases hunit with ⟨-, rfl, -⟩ | ⟨hge, -⟩
  · rw [sizeLabel_eq, htext]
    exact List.mem_map.mpr ⟨98, List.mem_append_right _ (by decide), rfl⟩
  · exact absurd h (UInt64.not_lt.mpr hge)

/-- All of the text is ASCII, and none of it NUL. -/
theorem sizeLabel_ascii (diskSize : UInt64) : 0 ∉ sizeLabel diskSize ∧
    ∀ c ∈ sizeLabel diskSize, c.toNat < 128 := by
  obtain ⟨number, unit, htext, hnumber, hunit⟩ := sizeToHumanReadable_parts diskSize
  have hbytes : ∀ b ∈ Ascii.text "bytes", 0 < b.toNat ∧ b.toNat < 128 :=
    List.all_iff_forall_prop.mp (by decide)
  have hunit' : ∀ b ∈ unit, 0 < b.toNat ∧ b.toNat < 128 := by
    intro b hb
    rcases hunit with ⟨-, rfl, -⟩ | ⟨-, hunit⟩
    · exact hbytes b hb
    · have := (sizeUnits_tail hunit).2 b hb
      omega
  have hrange : ∀ b ∈ sizeToHumanReadable diskSize, 0 < b.toNat ∧ b.toNat < 128 := by
    intro b hb
    rw [htext] at hb
    rcases List.mem_append.mp hb with hb | hb
    · rcases hnumber.plain b hb with hdigit | rfl
      · simp only [isDigit, Bool.and_eq_true, decide_eq_true_eq, UInt8.le_iff_toNat_le] at hdigit
        have h48 : (48 : UInt8).toNat = 48 := rfl
        have h57 : (57 : UInt8).toNat = 57 := rfl
        omega
      · decide
    · rcases List.mem_cons.mp hb with rfl | hb
      · decide
      · exact hunit' b hb
  have hlabel : ∀ c ∈ sizeLabel diskSize, 0 < c.toNat ∧ c.toNat < 128 := by
    intro c hc
    rw [sizeLabel_eq] at hc
    obtain ⟨b, hb, rfl⟩ := List.mem_map.mp hc
    split
    case isTrue => decide
    case isFalse =>
      rw [UInt8.toNat_toUInt16]
      exact hrange b hb
  exact ⟨fun hzero => absurd (hlabel 0 hzero).1 (by decide), fun c hc => (hlabel c hc).2⟩

/-! ## The result -/

namespace VolumeLabel

variable (label : VolumeLabel) (diskSize : UInt64)

theorem fatUnits_isFatUnit : ∀ c ∈ label.fatUnits, IsFatUnit c := by
  intro c hc
  obtain ⟨b, -, hb⟩ := List.mem_filterMap.mp (List.mem_of_mem_take hc)
  exact validUnit_isFatUnit hb

theorem fatUnits_length : label.fatUnits.length ≤ 11 ∧
    label.fatUnits.length ≤ (unitsOf label.chars).length := by
  have hfilter := List.length_filterMap_le (validUnit true) (unitsOf label.chars)
  rw [fatUnits, List.length_take]
  omega

/-- What there is before the test for underscores. -/
theorem toValidLabel_fat : ∃ w, Holds w label.fatUnits ∧
    w.length = (unitsOf label.chars).length + 1 ∧
    toValidLabel true label diskSize =
      (if label.MostlyUnderscores then copyUnits (sizeLabel diskSize) 0 w else .ok w) >>=
        putLabel label := by
  obtain ⟨compacted, w, hloop, hstore, hholds, hlength⟩ := compacted_holds true label
  obtain ⟨w', hcut, hholds', hlength'⟩ := cutUnits_holds hholds 11
  refine ⟨w', hholds', hlength'.trans hlength, ?_⟩
  have hstring : wcsString w' = label.fatUnits := hholds'.wcsString_eq
  simp only [toValidLabel, hloop, hstore, C.ok_bind, if_true, fatLabel, hcut, hstring,
    MostlyUnderscores]
  rfl

/-- ASCII units that are no more than the label had are put back as they are. -/
theorem putLabel_ascii {w s : List Wchar} (h : Holds w s) (hascii : ∀ c ∈ s, c.toNat < 128)
    (hlength : s.length ≤ 11) (hfits : s.length ≤ (unitsOf label.chars).length) :
    ∃ out, putLabel label w = .ok out ∧ out.usbLabel = s.map (·.toUInt8) ∧
      out.label = s.map (·.toUInt8) := by
  have hbytes := wcharToUtf8_of_ascii hascii
  have hnul : 0 ∉ s.map (·.toUInt8) := by
    intro hzero
    obtain ⟨c, hc, hc'⟩ := List.mem_map.mp hzero
    have hback := toUInt8_toUInt16 (hascii c hc)
    rw [hc'] at hback
    obtain rfl : c = 0 := hback.symm
    exact h.1 hc
  have hroom := unitsOf_length_le label.chars
  obtain ⟨out, hput, husb, hlabel⟩ := putLabel_ok label h (hbytes ▸ hnul)
    (by rw [hbytes, List.length_map]; omega)
  rw [hbytes, List.take_of_length_le (by rw [List.length_map]; omega)] at hlabel
  exact ⟨out, hput, husb.trans hbytes, hlabel⟩

/-- What is left of the label is a FAT one. -/
theorem right_of_kept (h : ¬label.MostlyUnderscores) : LabelRight true label diskSize := by
  obtain ⟨w, hholds, -, hrun⟩ := label.toValidLabel_fat diskSize
  have hunits := label.fatUnits_isFatUnit
  have hlength := label.fatUnits_length
  obtain ⟨out, hput, husb, hlabel⟩ := label.putLabel_ascii hholds
    (fun c hc => (hunits c hc).sevenBit) hlength.1 hlength.2
  refine ⟨out, ?_, hlabel.trans husb.symm, ?_⟩
  · rw [hrun, if_neg h, C.ok_bind, hput]
  · rw [if_pos rfl, hlabel]
    exact isFatLabel_of_units hlength.1 hunits

/-- The text that takes its place has to fit, and to be in upper case. -/
theorem right_iff_of_replaced (h : label.MostlyUnderscores) : LabelRight true label diskSize ↔
    1024 ≤ diskSize ∧ (sizeToHumanReadable diskSize).length ≤ (unitsOf label.chars).length := by
  obtain ⟨w, hholds, hlength, hrun⟩ := label.toValidLabel_fat diskSize
  have htext : (sizeLabel diskSize).length = (sizeToHumanReadable diskSize).length := by
    rw [sizeLabel_eq, List.length_map]
  have hten := sizeToHumanReadable_length diskSize
  obtain ⟨hnul, hascii⟩ := sizeLabel_ascii diskSize
  rw [if_pos h] at hrun
  by_cases hfits : (sizeToHumanReadable diskSize).length ≤ (unitsOf label.chars).length
  · obtain ⟨b, back, rfl⟩ : ∃ b back, w = b :: back :=
      List.exists_cons_of_length_pos (by omega)
    obtain ⟨w', hcopy, hholds'⟩ := copyUnits_holds (sizeLabel diskSize) [] back b
      List.not_mem_nil hnul (by rw [List.length_cons] at hlength; omega)
    rw [List.nil_append] at hholds'
    obtain ⟨out, hput, husb, hlabel⟩ := label.putLabel_ascii hholds' hascii (by omega) (by omega)
    have hok : toValidLabel true label diskSize = .ok out := by
      rw [hrun, ← hput]
      exact congrArg (· >>= putLabel label) hcopy
    constructor
    · rintro ⟨out', hok', -, hright⟩
      obtain rfl : out = out' := Except.ok.inj (hok.symm.trans hok')
      refine ⟨UInt64.not_lt.mp fun hsmall => ?_, hfits⟩
      have hlower : (98 : UInt8) ∈ (sizeLabel diskSize).map (·.toUInt8) :=
        List.mem_map.mpr ⟨98, sizeLabel_bytes hsmall, by decide⟩
      have hfat : IsFatLabel out.label := hright
      rw [← hlabel] at hlower
      exact hfat.upper 98 hlower (by decide)
    · rintro ⟨hlarge, -⟩
      refine ⟨out, hok, hlabel.trans husb.symm, ?_⟩
      rw [if_pos rfl, hlabel]
      exact isFatLabel_of_units (by omega) (sizeLabel_isFatUnit hlarge)
  · refine iff_of_false ?_ fun hright => hfits hright.2
    rintro ⟨out, hok, -⟩
    rw [hrun, copyUnits_fault _ _ _ (by omega)] at hok
    cases hok

end VolumeLabel

/-- For NTFS the label always is what it should be. For FAT it is unless it is
mostly underscores: then the size of the disk has to be one with a unit in upper
case, and its text may not be longer than the label was. -/
theorem toValidLabel_right_iff (fat : Bool) (label : VolumeLabel) (diskSize : UInt64) :
    LabelRight fat label diskSize ↔
      (fat = true → label.MostlyUnderscores →
        1024 ≤ diskSize ∧
          (sizeToHumanReadable diskSize).length ≤ (unitsOf label.chars).length) := by
  cases fat with
  | false => simpa using toValidLabel_ntfs label diskSize
  | true =>
      by_cases hmostly : label.MostlyUnderscores
      · simpa [hmostly] using label.right_iff_of_replaced diskSize hmostly
      · simpa [hmostly] using label.right_of_kept diskSize hmostly

/-- Two underscores, on a disk of 7.5 GB: the text has six characters. -/
theorem toValidLabel_wrong : ¬LabelRight true ⟨['_', '_'], by simp⟩ 8053063680 := by
  rw [VolumeLabel.right_iff_of_replaced _ _ (by decide)]
  decide

end Nawam
