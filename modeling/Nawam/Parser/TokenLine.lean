import Nawam.Base.Chunks
import Mathlib.Data.List.DropRight
import Mathlib.Data.List.TakeWhile
import Mathlib.Data.UInt

/-!
# Lines that hold a token

The two scanners of `parser.c` for lines of the form `token = data`. The one
that reads, `get_token_data_line`, also takes lines of XML: a `<` in front,
a `>` for the `=`, data in quotes or up to the next `<`. The one that writes,
in `set_token_data_file`, takes none of these, but a line that it takes, and
the line that it puts in its place, are both read by the first one, and as
lines of the same token. `KeyFront` is the part of a line they agree on.
-/

namespace Nawam

/-! ## Source -/

/-- `wchar_t`, a unit of UTF-16. -/
abbrev Wchar : Type := UInt16

/-- `'\n'` -/
abbrev newline : Wchar := 10

def isWspace (c : Wchar) : Bool := c = 32 || c = 9

def isEol (c : Wchar) : Bool := c = 13 || c = 10

/-- What `_wcsnicmp` compares. -/
def towlower (c : Wchar) : Wchar := if 65 ≤ c ∧ c ≤ 90 then c + 32 else c

/-- `i += wcsspn(&line[i], wspace)` -/
def skipSpaces (s : List Wchar) : List Wchar := s.dropWhile isWspace

/-- `_wcsnicmp(&line[i], wtoken, wcslen(wtoken)) == 0`, and `i` moved past the
token. -/
def skipToken (token s : List Wchar) : Option (List Wchar) :=
  if (s.take token.length).map towlower = token.map towlower then
    some (s.drop token.length)
  else none

/-- The condition of the loop that looks for the end of the data. -/
def isWithin (xml quoteth : Bool) (c : Wchar) : Bool :=
  (c ≠ 34 && c ≠ 60) || (c = 34 && !quoteth) || (c = 60 && !xml)

/-- The data of a line behind its `=` or `>`. -/
def lineData (xml : Bool) (s : List Wchar) : Option (List Wchar) :=
  let s := skipSpaces s
  let quoteth : Bool := s.head? = some 34
  let s := if quoteth then s.tail else s
  let data := (s.takeWhile (isWithin xml quoteth)).rdropWhile isEol
  if data = [] then none else some data

/-- Leading spaces and an opening `<` are skipped. -/
def skipOpening (line : List Wchar) : List Wchar :=
  let s := skipSpaces line
  skipSpaces (if s.head? = some 60 then s.tail else s)

def getTokenDataLine (token line : List Wchar) : Option (List Wchar) :=
  if line = [] then none
  else
    (skipToken token (skipOpening line)).bind fun s =>
      match skipSpaces s with
      | 62 :: s => lineData true s
      | 61 :: s => lineData false s
      | _ => none

/-- What `set_token_data_file` puts out for a line that it takes for one of
the token. -/
def setTokenDataLine (token data line : List Wchar) : Option (List Wchar) :=
  let s := skipSpaces line
  if s.head? = some 59 ∨ s.head? = some 91 then none
  else
    (skipToken token s).bind fun s =>
      match skipSpaces s with
      | 61 :: s =>
          let rest := skipSpaces s
          some (line.take (line.length - rest.length) ++ data ++ [newline])
      | _ => none

/-! ## Tokens -/

/-- A letter, a digit or an underscore. -/
def isKeyChar (c : Wchar) : Bool :=
  (48 ≤ c && c ≤ 57) || (65 ≤ c && c ≤ 90) || (97 ≤ c && c ≤ 122) || c = 95

/-- A token that can be the key of a setting. -/
structure IsToken (token : List Wchar) : Prop where
  ne_nil : token ≠ []
  chars : ∀ c ∈ token, isKeyChar c = true

/-- What `_wcsnicmp` cannot tell apart. -/
def SameToken (token token' : List Wchar) : Prop :=
  token.map towlower = token'.map towlower

instance (token token' : List Wchar) : Decidable (SameToken token token') :=
  inferInstanceAs (Decidable (_ = _))

/-- A property of UTF-16 units below 128 holds of all of them once it holds of
the 128 values. -/
theorem forall_ascii {p : Wchar → Prop} (h : ∀ n : Fin 128, p (.ofNat n)) {c : Wchar}
    (hc : c < 128) : p c := by
  have hlt : c.toNat < 128 := UInt16.lt_iff_toNat_lt.mp hc
  simpa using h ⟨c.toNat, hlt⟩

theorem isKeyChar_lt {c : Wchar} (h : isKeyChar c = true) : c < 128 := by
  simp only [isKeyChar, Bool.or_eq_true, Bool.and_eq_true, decide_eq_true_eq,
    UInt16.le_iff_toNat_le] at h
  have h57 : (57 : Wchar).toNat = 57 := rfl
  have h90 : (90 : Wchar).toNat = 90 := rfl
  have h122 : (122 : Wchar).toNat = 122 := rfl
  have h128 : (128 : Wchar).toNat = 128 := rfl
  rw [UInt16.lt_iff_toNat_lt, h128]
  rcases h with ((h | h) | h) | rfl
  · omega
  · omega
  · omega
  · decide

/-- What the scanners look for is in no token. -/
theorem isKeyChar_facts {c : Wchar} (h : isKeyChar c = true) :
    isWspace c = false ∧ c ≠ 60 ∧ c ≠ 61 ∧ c ≠ 62 ∧ c ≠ 59 ∧ c ≠ 91 ∧ c ≠ newline ∧
      isKeyChar (towlower c) = true := by
  have hall := forall_ascii (p := fun c => isKeyChar c = true → isWspace c = false ∧
    c ≠ 60 ∧ c ≠ 61 ∧ c ≠ 62 ∧ c ≠ 59 ∧ c ≠ 91 ∧ c ≠ newline ∧
      isKeyChar (towlower c) = true) (by decide) (isKeyChar_lt h)
  exact hall h

/-- Upper and lower case do not take a character out of the tokens. -/
theorem isKeyChar_of_towlower {c : Wchar} (h : isKeyChar (towlower c) = true) :
    isKeyChar c = true := by
  unfold towlower at h
  split at h
  case isTrue hupper =>
    simp [isKeyChar, hupper]
  case isFalse => exact h

theorem isKeyChar_of_same {token token' : List Wchar} (htoken : IsToken token)
    (h : SameToken token' token) : ∀ c ∈ token', isKeyChar c = true := by
  intro c hc
  have hlower : towlower c ∈ token.map towlower :=
    h ▸ List.mem_map_of_mem hc
  obtain ⟨d, hd, heq⟩ := List.mem_map.mp hlower
  have hkey := (isKeyChar_facts (htoken.chars d hd)).2.2.2.2.2.2.2
  exact isKeyChar_of_towlower (heq ▸ hkey)

theorem SameToken.length {token token' : List Wchar} (h : SameToken token token') :
    token.length = token'.length := by
  simpa using congrArg List.length h

/-! ## The front of a line -/

/-- The front of a line of the token: blanks, the token in any case, blanks, the
`=` and the blanks behind it. -/
def KeyFront (token front : List Wchar) : Prop :=
  ∃ s₁ token' s₂ s₃, front = s₁ ++ token' ++ s₂ ++ 61 :: s₃ ∧
    SameToken token' token ∧ (∀ c ∈ s₁, isWspace c = true) ∧
    (∀ c ∈ s₂, isWspace c = true) ∧ ∀ c ∈ s₃, isWspace c = true

theorem skipSpaces_append {s rest : List Wchar} (h : ∀ c ∈ s, isWspace c = true) :
    skipSpaces (s ++ rest) = skipSpaces rest := by
  induction s with
  | nil => rfl
  | cons c s ih =>
      rw [List.cons_append, skipSpaces, List.dropWhile_cons_of_pos (h c List.mem_cons_self)]
      exact ih fun d hd => h d (List.mem_cons_of_mem c hd)

theorem skipSpaces_of_not {c : Wchar} {rest : List Wchar} (h : isWspace c = false) :
    skipSpaces (c :: rest) = c :: rest := by
  simp [skipSpaces, h]

theorem exists_skipSpaces (s : List Wchar) : ∃ spaces, s = spaces ++ skipSpaces s ∧
    ∀ c ∈ spaces, isWspace c = true :=
  ⟨s.takeWhile isWspace, List.takeWhile_append_dropWhile.symm,
    fun _ hc => List.mem_takeWhile_imp hc⟩

theorem skipToken_same {token token' : List Wchar} (h : SameToken token' token)
    (rest : List Wchar) : skipToken token (token' ++ rest) = some rest := by
  have hlen := h.length
  rw [skipToken, ← hlen, List.take_left, List.drop_left]
  exact if_pos h

/-- **A token is not taken for another one**: where a token that is not the
same matches the front of one that ends before a blank or an `=`, what follows
is neither an `=` nor a `>`. -/
theorem skipToken_other {token token' rest : List Wchar} {c : Wchar}
    (htoken : ∀ c ∈ token, isKeyChar c = true)
    (htoken' : ∀ c ∈ token', isKeyChar c = true) (hc : isKeyChar c = false)
    (hother : ¬SameToken token' token) {s : List Wchar}
    (h : skipToken token (token' ++ c :: rest) = some s) :
    ∃ d s', skipSpaces s = d :: s' ∧ isKeyChar d = true := by
  unfold skipToken at h
  split at h
  case isFalse => cases h
  case isTrue heq =>
    cases h
    rcases Nat.lt_trichotomy token.length token'.length with hlt | hlen | hgt
    · have hne : token'.drop token.length ≠ [] := by
        intro hnil
        have hzero := congrArg List.length hnil
        rw [List.length_drop, List.length_nil] at hzero
        omega
      obtain ⟨d, s', hdrop⟩ := List.exists_cons_of_ne_nil hne
      have hd : isKeyChar d = true :=
        htoken' d (List.mem_of_mem_drop (hdrop ▸ List.mem_cons_self))
      refine ⟨d, s' ++ c :: rest, ?_, hd⟩
      rw [List.drop_append_of_le_length hlt.le, hdrop, List.cons_append,
        skipSpaces_of_not (isKeyChar_facts hd).1]
    · rw [hlen, List.take_left] at heq
      exact absurd heq hother
    · -- the token would go on where the other one ends
      have hget := congrArg (·[token'.length]?) heq
      simp only [List.getElem?_map, List.getElem?_take_of_lt hgt,
        List.getElem?_append_right le_rfl, Nat.sub_self, List.getElem?_cons_zero,
        Option.map_some] at hget
      rw [List.getElem?_eq_getElem hgt, Option.map_some, Option.some.injEq] at hget
      have hkey := (isKeyChar_facts (htoken _ (List.getElem_mem hgt))).2.2.2.2.2.2.2
      rw [← hget] at hkey
      exact absurd (isKeyChar_of_towlower hkey) (by simp [hc])

theorem skipToken_of_not_key {token rest : List Wchar} {c : Wchar}
    (htoken : IsToken token) (hc : isKeyChar c = false) :
    skipToken token (c :: rest) = none := by
  obtain ⟨d, token, rfl⟩ := List.exists_cons_of_ne_nil htoken.ne_nil
  refine if_neg fun heq => ?_
  have hhead : towlower c = towlower d := by simpa using congrArg List.head? heq
  have hkey := (isKeyChar_facts (htoken.chars d List.mem_cons_self)).2.2.2.2.2.2.2
  rw [← hhead] at hkey
  exact absurd (isKeyChar_of_towlower hkey) (by simp [hc])

theorem skipToken_nil {token : List Wchar} (htoken : IsToken token) :
    skipToken token [] = none := by
  refine if_neg fun heq => htoken.ne_nil ?_
  simpa using heq.symm

theorem exists_of_skipToken {token s rest : List Wchar}
    (h : skipToken token s = some rest) :
    ∃ token', s = token' ++ rest ∧ SameToken token' token := by
  unfold skipToken at h
  split at h
  case isTrue heq =>
    cases h
    exact ⟨_, (List.take_append_drop _ _).symm, heq⟩
  case isFalse => cases h

/-- **What the writer takes for a line of the token** starts with a front, which
it keeps. -/
theorem setTokenDataLine_front {token data line out : List Wchar}
    (h : setTokenDataLine token data line = some out) :
    ∃ front rest, KeyFront token front ∧ line = front ++ rest ∧
      out = front ++ data ++ [newline] := by
  unfold setTokenDataLine at h
  dsimp only at h
  split at h
  case isTrue => cases h
  case isFalse =>
    obtain ⟨s, hs, h⟩ := Option.bind_eq_some_iff.mp h
    obtain ⟨token', hline, hsame⟩ := exists_of_skipToken hs
    split at h
    case h_2 => cases h
    case h_1 s' hequals =>
      obtain ⟨s₁, hs₁, hblank₁⟩ := exists_skipSpaces line
      obtain ⟨s₂, hs₂, hblank₂⟩ := exists_skipSpaces s
      obtain ⟨s₃, hs₃, hblank₃⟩ := exists_skipSpaces s'
      have hsplit : line = (s₁ ++ token' ++ s₂ ++ 61 :: s₃) ++ skipSpaces s' := by
        calc line = s₁ ++ skipSpaces line := hs₁
          _ = s₁ ++ (token' ++ (s₂ ++ 61 :: s')) := by rw [hline, hs₂, hequals]
          _ = (s₁ ++ token' ++ s₂ ++ 61 :: s₃) ++ skipSpaces s' := by
            rw [List.append_assoc, List.append_assoc, List.append_assoc,
              List.cons_append, ← hs₃]
      have htake : line.take (line.length - (skipSpaces s').length) =
          s₁ ++ token' ++ s₂ ++ 61 :: s₃ := by
        have hlen : line.length - (skipSpaces s').length =
            (s₁ ++ token' ++ s₂ ++ 61 :: s₃).length := by
          have hsum := congrArg List.length hsplit
          rw [List.length_append] at hsum
          omega
        rw [hlen, hsplit, List.take_left]
      rw [htake, Option.some.injEq] at h
      exact ⟨_, _, ⟨s₁, token', s₂, s₃, rfl, hsame, hblank₁, hblank₂, hblank₃⟩, hsplit,
        h.symm⟩

/-! ## Reading a line with a front -/

theorem isWspace_not_key {c : Wchar} (h : isWspace c = true) : isKeyChar c = false := by
  cases hkey : isKeyChar c with
  | false => rfl
  | true => simp [(isKeyChar_facts hkey).1] at h

/-- Behind an opening the first character of a token is found. -/
theorem skipOpening_append {opening spaces rest : List Wchar} {c : Wchar}
    (hopening : skipOpening opening = []) (hspaces : ∀ c ∈ spaces, isWspace c = true)
    (hc : isKeyChar c = true) :
    skipOpening (opening ++ (spaces ++ c :: rest)) = c :: rest := by
  have hskip : skipSpaces (spaces ++ c :: rest) = c :: rest := by
    rw [skipSpaces_append hspaces, skipSpaces_of_not (isKeyChar_facts hc).1]
  obtain ⟨s₁, hs₁, hblank₁⟩ := exists_skipSpaces opening
  cases hs : skipSpaces opening with
  | nil =>
      rw [hs, List.append_nil] at hs₁
      have hhead : (c :: rest).head? ≠ some 60 := by
        simpa using (isKeyChar_facts hc).2.1
      rw [skipOpening, hs₁, skipSpaces_append hblank₁, hskip, if_neg hhead,
        skipSpaces_of_not (isKeyChar_facts hc).1]
  | cons d s =>
      rw [skipOpening, hs] at hopening
      by_cases hd : (d :: s).head? = some 60
      · rw [if_pos hd, List.tail_cons] at hopening
        obtain ⟨s₂, hs₂, hblank₂⟩ := exists_skipSpaces s
        rw [hopening, List.append_nil] at hs₂
        have hnot : isWspace d = false := by
          obtain rfl : d = 60 := by simpa using hd
          rfl
        rw [skipOpening, hs₁, hs, List.append_assoc, skipSpaces_append hblank₁,
          List.cons_append, skipSpaces_of_not hnot]
        have hd' : (d :: (s ++ (spaces ++ c :: rest))).head? = some 60 := hd
        rw [if_pos hd', List.tail_cons, hs₂, skipSpaces_append hblank₂, hskip]
      · -- what is left after the blanks does not start with a blank
        rw [if_neg hd] at hopening
        have hidem : skipSpaces (d :: s) = d :: s := by
          rw [← hs]
          exact List.dropWhile_idempotent isWspace opening
        rw [hidem] at hopening
        cases hopening

section

variable {token front : List Wchar} (htoken : IsToken token)
  (hfront : KeyFront token front) {opening rest : List Wchar}
  (hopening : skipOpening opening = [])
include htoken hfront hopening

theorem getTokenDataLine_front :
    getTokenDataLine token (opening ++ (front ++ rest)) = lineData false rest := by
  obtain ⟨s₁, token', s₂, s₃, rfl, hsame, hblank₁, hblank₂, hblank₃⟩ := hfront
  have hne : token' ≠ [] := by
    rintro rfl
    exact htoken.ne_nil (by simpa [SameToken] using hsame.symm)
  obtain ⟨c, cs, rfl⟩ := List.exists_cons_of_ne_nil hne
  have hc := isKeyChar_of_same htoken hsame c List.mem_cons_self
  have hskip : skipOpening (opening ++ (s₁ ++ c :: (cs ++ (s₂ ++ 61 :: (s₃ ++ rest))))) =
      c :: (cs ++ (s₂ ++ 61 :: (s₃ ++ rest))) :=
    skipOpening_append hopening hblank₁ hc
  have hline : s₁ ++ (c :: cs) ++ s₂ ++ 61 :: s₃ ++ rest =
      s₁ ++ c :: (cs ++ (s₂ ++ 61 :: (s₃ ++ rest))) := by simp
  have hdata : lineData false (s₃ ++ rest) = lineData false rest := by
    unfold lineData
    rw [skipSpaces_append hblank₃]
  rw [getTokenDataLine, if_neg (by simp), hline, hskip, ← List.cons_append,
    skipToken_same hsame, Option.bind_some, skipSpaces_append hblank₂,
    skipSpaces_of_not (by decide)]
  exact hdata

/-- **The line of a token is not read as one of any other token.** -/
theorem getTokenDataLine_other {other : List Wchar} (hother : IsToken other)
    (hne : ¬SameToken other token) :
    getTokenDataLine other (opening ++ (front ++ rest)) = none := by
  obtain ⟨s₁, token', s₂, s₃, rfl, hsame, hblank₁, hblank₂, -⟩ := hfront
  have htoken'_ne : token' ≠ [] := by
    rintro rfl
    exact htoken.ne_nil (by simpa [SameToken] using hsame.symm)
  have hchars := isKeyChar_of_same htoken hsame
  have hne' : ¬SameToken token' other := fun h =>
    hne (h.symm.trans hsame)
  obtain ⟨c, cs, rfl⟩ := List.exists_cons_of_ne_nil htoken'_ne
  obtain ⟨d, ds, hd, hend⟩ : ∃ d ds, isKeyChar d = false ∧
      s₂ ++ 61 :: (s₃ ++ rest) = d :: ds := by
    cases s₂ with
    | nil => exact ⟨61, s₃ ++ rest, by decide, rfl⟩
    | cons d s₂ =>
        exact ⟨d, s₂ ++ 61 :: (s₃ ++ rest),
          isWspace_not_key (hblank₂ d List.mem_cons_self), rfl⟩
  have hskip : skipOpening (opening ++ (s₁ ++ c :: (cs ++ d :: ds))) =
      c :: (cs ++ d :: ds) :=
    skipOpening_append hopening hblank₁ (hchars c List.mem_cons_self)
  have hline : s₁ ++ (c :: cs) ++ s₂ ++ 61 :: s₃ ++ rest =
      s₁ ++ c :: (cs ++ d :: ds) := by
    rw [← hend]
    simp
  rw [getTokenDataLine, if_neg (by simp), hline, hskip, ← List.cons_append]
  cases hmatch : skipToken other ((c :: cs) ++ d :: ds) with
  | none => rfl
  | some s =>
      obtain ⟨e, s', hs, he⟩ := skipToken_other hother.chars hchars hd hne' hmatch
      have hfacts := isKeyChar_facts he
      rw [Option.bind_some, hs]
      split
      case h_1 heq => exact absurd (List.cons.inj heq).1 hfacts.2.2.2.1
      case h_2 heq => exact absurd (List.cons.inj heq).1 hfacts.2.2.1
      case h_3 => rfl

end

/-- An empty line holds nothing. -/
theorem getTokenDataLine_newline {token : List Wchar} (htoken : IsToken token) :
    getTokenDataLine token [newline] = none := by
  have hskip : skipOpening [newline] = [newline] := by decide
  rw [getTokenDataLine, if_neg (List.cons_ne_nil _ _), hskip,
    skipToken_of_not_key htoken (by decide)]
  rfl

/-- Neither does one that is only an opening. -/
theorem getTokenDataLine_opening {token opening : List Wchar} (htoken : IsToken token)
    (hopening : skipOpening opening = []) : getTokenDataLine token opening = none := by
  unfold getTokenDataLine
  split
  case isTrue => rfl
  case isFalse =>
    rw [hopening, skipToken_nil htoken]
    rfl

/-! ## Data -/

theorem skipSpaces_subset (s : List Wchar) : skipSpaces s ⊆ s :=
  (List.dropWhile_suffix isWspace).subset

theorem lineData_subset {xml : Bool} {s data : List Wchar}
    (h : lineData xml s = some data) : data ⊆ s := by
  have hquote (quoteth : Bool) :
      (if quoteth then (skipSpaces s).tail else skipSpaces s) ⊆ s := by
    intro c hc
    split at hc
    case isTrue => exact skipSpaces_subset s (List.mem_of_mem_tail hc)
    case isFalse => exact skipSpaces_subset s hc
  have hsome {found : List Wchar}
      (h : (if found = [] then none else some found) = some data) : found = data := by
    split at h
    case isTrue => cases h
    case isFalse => exact Option.some.inj h
  intro c hc
  rw [← hsome h] at hc
  exact hquote _ ((List.takeWhile_prefix _).subset
    ((List.rdropWhile_prefix isEol _).subset hc))

theorem getTokenDataLine_subset {token line data : List Wchar}
    (h : getTokenDataLine token line = some data) : data ⊆ line := by
  have hopening : skipOpening line ⊆ line := by
    intro c hc
    have hc := skipSpaces_subset _ hc
    refine skipSpaces_subset line ?_
    split at hc
    case isTrue => exact List.mem_of_mem_tail hc
    case isFalse => exact hc
  unfold getTokenDataLine at h
  split at h
  case isTrue => cases h
  case isFalse =>
    obtain ⟨s, hs, h⟩ := Option.bind_eq_some_iff.mp h
    obtain ⟨token', hline, -⟩ := exists_of_skipToken hs
    have hrest : skipSpaces s ⊆ line := fun c hc =>
      hopening (hline ▸ List.mem_append_right token' (skipSpaces_subset s hc))
    split at h
    case h_1 s' heq =>
      exact fun c hc => hrest (heq ▸ List.mem_cons_of_mem 62 (lineData_subset h hc))
    case h_2 s' heq =>
      exact fun c hc => hrest (heq ▸ List.mem_cons_of_mem 61 (lineData_subset h hc))
    case h_3 => cases h

/-- Data without quotes and line breaks, and without a blank in front. -/
structure IsData (data : List Wchar) : Prop where
  ne_nil : data ≠ []
  head : ∀ c ∈ data.head?, isWspace c = false
  chars : ∀ c ∈ data, c ≠ 34 ∧ isEol c = false

/-- What is left of the data in a piece of the line. -/
theorem IsData.take {data : List Wchar} (h : IsData data) {m : ℕ} (hm : 0 < m) :
    IsData (data.take m) where
  ne_nil := by
    simpa [Nat.pos_iff_ne_zero.mp hm] using h.ne_nil
  head c hc := h.head c (by
    rwa [List.head?_take, if_neg (Nat.pos_iff_ne_zero.mp hm)] at hc)
  chars c hc := h.chars c (List.mem_of_mem_take hc)

/-- **The data are read back**, with and without the mark behind them. -/
theorem lineData_of_isData {data tail : List Wchar} (h : IsData data)
    (htail : tail = [] ∨ tail = [newline]) :
    lineData false (data ++ tail) = some data := by
  obtain ⟨c, cs, rfl⟩ := List.exists_cons_of_ne_nil h.ne_nil
  have hc : isWspace c = false := h.head c rfl
  have hquote : c ≠ 34 := (h.chars c List.mem_cons_self).1
  have hlast : (c :: cs).rdropWhile isEol = c :: cs := by
    rw [List.rdropWhile_eq_self_iff]
    intro hne
    simp [(h.chars _ (List.getLast_mem hne)).2]
  have hdrop : ((c :: cs) ++ tail).rdropWhile isEol = c :: cs := by
    rcases htail with rfl | rfl
    · rw [List.append_nil, hlast]
    · rw [List.rdropWhile_concat_pos _ _ _ (by decide), hlast]
  have hwithin : ∀ d, isWithin false false d = true := by
    intro d
    by_cases h34 : d = 34
    · simp [isWithin, h34]
    · by_cases h60 : d = 60
      · simp [isWithin, h60]
      · simp [isWithin, h34, h60]
  have htake : ((c :: cs) ++ tail).takeWhile (isWithin false false) = (c :: cs) ++ tail :=
    List.takeWhile_eq_self_iff.mpr fun d _ => hwithin d
  have hspaces : skipSpaces ((c :: cs) ++ tail) = (c :: cs) ++ tail := by
    rw [List.cons_append, skipSpaces_of_not hc]
  have hhead : decide (((c :: cs) ++ tail).head? = some 34) = false :=
    decide_eq_false (by simpa using hquote)
  simp only [lineData, hspaces, hhead, Bool.false_eq_true, if_false, htake, hdrop,
    List.cons_ne_nil]

end Nawam
