import Nawam.Base.Achieves
import Nawam.Base.CString
import Mathlib.Data.List.DropRight

/-!
# White space around a string

`trim` of `parser.c`. What the white space is depends on the locale. The loop from the end of
the string has no lower bound: in a string of white space only it goes on in front of it.
-/

namespace Nawam

/-! ## Source -/

variable {isspace : UInt8 → Bool}

/-- `while (isspace(str[l - 1])) str[--l] = '\0';`, where `str[-1]` is no byte of the string -/
def trimEnd (isspace : UInt8 → Bool) : (l : ℕ) → List UInt8 → C (ℕ × List UInt8)
  | 0, _ => .error .outOfBounds
  | l + 1, str => do
      let c ← load str l
      if isspace c then do
        let str ← store str l Ascii.nul
        trimEnd isspace l str
      else .ok (l + 1, str)

/-- The loop from the front, and the `memmove` -/
def trimFront (isspace : UInt8 → Bool) (l : ℕ) (str : List UInt8) : C (List UInt8) := do
  let p ← scanFrom (fun c => c = Ascii.nul || !isspace c) str 0
  let moved ← loadN str p (l - p + 1)
  copyInto str 0 moved

def trim (isspace : UInt8 → Bool) : Option (List UInt8) → C (Option (List UInt8))
  | none => .ok none
  | some str => do
      let l ← scanFrom (· = Ascii.nul) str 0
      if l < 1 then .ok (some str)
      else do
        let (l, str) ← trimEnd isspace l str
        let str ← trimFront isspace l str
        .ok (some str)

/-! ## What is left -/

/-- A string without its white space in front and at the end -/
def trimmed (isspace : UInt8 → Bool) (s : List UInt8) : List UInt8 :=
  (s.rdropWhile isspace).dropWhile isspace

/-- In the bytes of the string and its terminator, `trim` leaves the string trimmed. -/
def Trims (isspace : UInt8 → Bool) (s : List UInt8) : Prop :=
  ∃ str, trim isspace (some (s ++ [Ascii.nul])) = .ok (some str) ∧
    cstrAt str 0 = .ok (trimmed isspace s)

/-- The white space at the end becomes NULs. -/
theorem trimEnd_blanks (front : List UInt8) {blanks : List UInt8} (h : ∀ c ∈ blanks, isspace c) :
    ∀ back : List UInt8,
      trimEnd isspace (front.length + blanks.length) (front ++ (blanks ++ back)) =
        trimEnd isspace front.length
          (front ++ (List.replicate blanks.length Ascii.nul ++ back)) := by
  induction blanks using List.reverseRecOn with
  | nil => exact fun _ => rfl
  | append_singleton blanks c ih =>
      intro back
      have hsplit : front ++ (blanks ++ [c] ++ back) = (front ++ blanks) ++ c :: back := by simp
      have hlength : front.length + (blanks ++ [c]).length = (front ++ blanks).length + 1 := by
        rw [List.length_append, List.length_append, List.length_singleton, Nat.add_assoc]
      have hnuls : List.replicate (blanks ++ [c]).length Ascii.nul ++ back =
          List.replicate blanks.length Ascii.nul ++ Ascii.nul :: back := by
        rw [List.length_append, List.length_singleton, List.replicate_succ', List.append_assoc,
          List.singleton_append]
      rw [hlength, hsplit, trimEnd, load_append_cons, C.ok_bind,
        if_pos (h c (List.mem_append_right _ List.mem_cons_self)), store_append_cons, C.ok_bind, hnuls,
        List.append_assoc, List.length_append]
      exact ih (fun b hb => h b (List.mem_append_left _ hb)) (Ascii.nul :: back)

/-- The loop stops at a character that is not white space. -/
theorem trimEnd_of_last {front : List UInt8} {c : UInt8} (hc : isspace c = false)
    (back : List UInt8) :
    trimEnd isspace (front ++ [c]).length (front ++ [c] ++ back) =
      .ok ((front ++ [c]).length, front ++ [c] ++ back) := by
  rw [List.length_append, List.length_singleton, List.append_assoc, List.singleton_append, trimEnd,
    load_append_cons, C.ok_bind, if_neg (by rw [hc]; exact Bool.false_ne_true)]

theorem trimFront_eq {lead core back : List UInt8} {c : UInt8}
    (hlead : ∀ b ∈ lead, isspace b = true ∧ b ≠ Ascii.nul) (hc : isspace c = false)
    (hcore : Ascii.nul ∉ c :: core) :
    Achieves (trimFront isspace (lead ++ c :: core).length
      (lead ++ c :: core ++ Ascii.nul :: back)) fun str => cstrAt str 0 = .ok (c :: core) := by
  have hscan : scanFrom (fun c => c = Ascii.nul || !isspace c)
      (lead ++ (c :: core ++ Ascii.nul :: back)) 0 = .ok lead.length := by
    have hpass : ∀ b ∈ lead, (decide (b = Ascii.nul) || !isspace b) = false := by
      intro b hb
      obtain ⟨hspace, hne⟩ := hlead b hb
      rw [hspace, decide_eq_false hne]
      rfl
    have hstop : (decide (c = Ascii.nul) || !isspace c) = true := by
      rw [hc, Bool.not_false, Bool.or_true]
    have h := @scanFrom_append _ [] lead (core ++ Ascii.nul :: back) c hpass hstop
    rw [List.length_nil, Nat.zero_add] at h
    exact h
  -- what is moved is the string and its terminator
  obtain ⟨moved, hmoved⟩ : ∃ moved, c :: core ++ [Ascii.nul] = moved := ⟨_, rfl⟩
  have hcount : (lead ++ c :: core).length - lead.length + 1 = moved.length := by
    rw [← hmoved, List.length_append, Nat.add_sub_cancel_left, List.length_append,
      List.length_singleton]
  have hsplit : c :: core ++ Ascii.nul :: back = moved ++ back := by
    rw [← hmoved, List.append_assoc, List.singleton_append]
  have hload : loadN (lead ++ (moved ++ back)) lead.length moved.length = .ok moved := by
    rw [loadN_of_le (by simp only [List.length_append]; omega), List.drop_left, List.take_left]
  have hcopy : copyInto (lead ++ (moved ++ back)) 0 moved =
      .ok (moved ++ (lead ++ (moved ++ back)).drop moved.length) := by
    rw [copyInto_of_le (by simp only [List.length_append]; omega), List.take_zero, List.nil_append,
      Nat.zero_add]
  rw [trimFront, List.append_assoc, hscan, C.ok_bind, hcount, hsplit, hload, C.ok_bind, hcopy]
  refine .ok ?_
  rw [← hmoved, List.append_assoc, List.singleton_append]
  exact @cstrAt_append [] (c :: core) _ hcore

section

variable {s : List UInt8}

theorem scan_string (hs : Ascii.nul ∉ s) (back : List UInt8) :
    scanFrom (· = Ascii.nul) (s ++ Ascii.nul :: back) 0 = .ok s.length := by
  have hpass : ∀ b ∈ s, decide (b = Ascii.nul) = false := by
    intro b hb
    exact decide_eq_false fun h => hs (h ▸ hb)
  have h := @scanFrom_append _ [] s back _ hpass (decide_eq_true rfl)
  rw [List.length_nil, Nat.zero_add] at h
  exact h

theorem trims_nil : Trims isspace [] := ⟨[Ascii.nul], rfl, rfl⟩

/-- In a string of white space, the byte in front of it is read. -/
theorem trim_blank (hs : Ascii.nul ∉ s) (hne : s ≠ []) (hall : ∀ c ∈ s, isspace c = true) :
    trim isspace (some (s ++ [Ascii.nul])) = .error .outOfBounds := by
  have hpos := List.length_pos_iff.mpr hne
  have hend := trimEnd_blanks [] hall [Ascii.nul]
  rw [List.length_nil, Nat.zero_add, List.nil_append] at hend
  rw [trim, scan_string hs, C.ok_bind, if_neg (by omega), hend]
  rfl

/-- A string with a character that is not white space is trimmed. -/
theorem trims_of_mem (hs : Ascii.nul ∉ s) {c : UInt8} (hmem : c ∈ s) (hc : isspace c = false) :
    Trims isspace s := by
  have hsplit : s.rdropWhile isspace ++ s.rtakeWhile isspace = s := List.rdropWhile_append_rtakeWhile
  have hkept : c ∈ s.rdropWhile isspace := by
    rw [← hsplit] at hmem
    rcases List.mem_append.mp hmem with h | h
    · exact h
    · rw [List.mem_rtakeWhile_imp h] at hc
      cases hc
  have hsub : Ascii.nul ∉ s.rdropWhile isspace := fun h => hs ((List.rdropWhile_prefix _ _).subset h)
  have hpos : 0 < s.length := List.length_pos_of_mem hmem
  -- the end
  obtain ⟨front, last, hlast⟩ : ∃ front last, s.rdropWhile isspace = front ++ [last] :=
    ⟨_, _, (List.dropLast_append_getLast (List.ne_nil_of_mem hkept)).symm⟩
  have hstop : isspace last = false := by
    have h := List.rdropWhile_last_not isspace s (List.ne_nil_of_mem hkept)
    simpa [hlast] using h
  have hend : trimEnd isspace s.length (s ++ [Ascii.nul]) =
      .ok ((s.rdropWhile isspace).length, s.rdropWhile isspace ++
        Ascii.nul :: List.replicate (s.rtakeWhile isspace).length Ascii.nul) := by
    have hblanks := trimEnd_blanks (s.rdropWhile isspace)
      (fun _ => List.mem_rtakeWhile_imp : ∀ c ∈ s.rtakeWhile isspace, isspace c) [Ascii.nul]
    rw [← List.append_assoc, ← List.length_append, hsplit, ← List.replicate_succ',
      List.replicate_succ, hlast, trimEnd_of_last hstop, ← hlast] at hblanks
    exact hblanks
  -- the front
  have hparts : (s.rdropWhile isspace).takeWhile isspace ++ trimmed isspace s =
      s.rdropWhile isspace := List.takeWhile_append_dropWhile
  have hlead : ∀ b ∈ (s.rdropWhile isspace).takeWhile isspace, isspace b = true ∧ b ≠ Ascii.nul := by
    intro b hb
    refine ⟨List.mem_takeWhile_imp hb, ?_⟩
    rintro rfl
    exact hsub ((List.takeWhile_prefix _).subset hb)
  have hcore : Ascii.nul ∉ trimmed isspace s := fun h => hsub ((List.dropWhile_suffix _).subset h)
  cases hrest : trimmed isspace s with
  | nil =>
      have hall := List.dropWhile_eq_nil_iff.mp hrest c hkept
      rw [hc] at hall
      cases hall
  | cons d core =>
      have hd : isspace d = false := by
        have h := List.head?_dropWhile_not isspace (s.rdropWhile isspace)
        rw [trimmed] at hrest
        rw [hrest] at h
        exact h
      rw [hrest] at hcore hparts
      rw [← hparts] at hend
      obtain ⟨str, hfront, hstr⟩ := @trimFront_eq _ _ _
        (List.replicate (s.rtakeWhile isspace).length Ascii.nul) _ hlead hd hcore
      refine ⟨str, ?_, by rw [hrest, hstr]⟩
      rw [trim, scan_string hs, C.ok_bind, if_neg (by omega), hend, C.ok_bind]
      exact congrArg (· >>= fun str => .ok (some str)) hfront

end

/-- The string is trimmed, and no byte outside of it is read or written, unless it has white
space only. -/
theorem trims_iff (isspace : UInt8 → Bool) {s : List UInt8} (hs : Ascii.nul ∉ s) :
    Trims isspace s ↔ s = [] ∨ ∃ c ∈ s, isspace c = false := by
  constructor
  · rintro ⟨str, htrim, -⟩
    by_contra hnone
    obtain ⟨hne, hall⟩ := not_or.mp hnone
    rw [trim_blank hs hne] at htrim
    · cases htrim
    · intro c hc
      by_contra hspace
      exact hall ⟨c, hc, Bool.eq_false_of_not_eq_true hspace⟩
  · rintro (rfl | ⟨c, hmem, hc⟩)
    · exact trims_nil
    · exact trims_of_mem hs hmem hc

theorem trims_iff_at_letter : Trims isSpace [Ascii.space, 97, Ascii.space] :=
  (trims_iff isSpace (by decide)).mpr (.inr ⟨97, by decide, by decide⟩)

theorem blank_not_trims : Ascii.nul ∉ [Ascii.space] ∧ ¬Trims isSpace [Ascii.space] := by
  refine ⟨by decide, ?_⟩
  rintro ⟨str, htrim, -⟩
  have hall (c : UInt8) (hc : c ∈ [Ascii.space]) : isSpace c = true := by
    rw [List.mem_singleton.mp hc]
    rfl
  rw [trim_blank (by decide) (by decide) hall] at htrim
  cases htrim

end Nawam
