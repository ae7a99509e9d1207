import Nawam.Parser.LocReader

/-!
# The lines of a section

What the lines of a section are for the one who writes them: a line that is blank,
one that begins with a character of its own, and one that goes on with the string
that the lines before it ended with (`LocLine`). `joined` puts the strings together
and takes out the escape sequences; the loop of `get_loc_data_file` comes to the
same lines, as long as they fit into its buffer (`scanTo_lines`).
-/

namespace Nawam

open Ascii

/-! ## Escape sequences -/

/-- A line without its escape sequences. A backslash goes with a blank behind it, and
at the end of the line it is dropped. -/
def unescape : (escaped : Bool) → List UInt8 → List UInt8
  | _, [] => []
  | true, c :: s => (if isBlank c then [] else LocReader.escaped c) ++ unescape false s
  | false, c :: s => if c = backslash then unescape true s else c :: unescape false s

/-- No characters that end a line -/
def OneLine (s : List UInt8) : Prop := ∀ c ∈ s, c ≠ cr ∧ c ≠ lf

instance (s : List UInt8) : Decidable (OneLine s) := List.decidableBAll _ s

theorem OneLine.tail {c : UInt8} {s : List UInt8} (h : OneLine (c :: s)) : OneLine s :=
  fun d hd => h d (List.mem_cons_of_mem c hd)

theorem OneLine.of_append {s t : List UInt8} (h : OneLine (s ++ t)) : OneLine s ∧ OneLine t :=
  ⟨fun c hc => h c (List.mem_append_left t hc), fun c hc => h c (List.mem_append_right s hc)⟩

namespace LocReader

variable {rd : LocReader} {c : UInt8}

/-- Within a line a character is put into the buffer, or what it stands for. -/
theorem read_inLine (behind : List UInt8) (heol : rd.eol = false) (hcr : c ≠ cr) (hlf : c ≠ lf) :
    ∃ rd' out, rd.read behind c = (rd', none) ∧ rd'.eol = false ∧ rd'.buf = rd.buf ++ out ∧
      ∀ s, unescape rd.escapeSequence (c :: s) = out ++ unescape rd'.escapeSequence s := by
  rw [read, if_neg (not_or.mpr ⟨hcr, hlf⟩)]
  cases hescape : rd.escapeSequence with
  | true =>
      by_cases hblank : isBlank c = true
      · rw [if_pos hblank, if_pos rfl]
        exact ⟨_, [], rfl, heol, (List.append_nil _).symm, fun s => by rw [unescape, if_pos hblank]⟩
      · rw [if_neg hblank, if_pos rfl]
        exact ⟨_, escaped c, rfl, heol, rfl, fun s => by rw [unescape, if_neg hblank]⟩
  | false =>
      have hplain (hbackslash : c ≠ backslash) (s : List UInt8) :
          unescape false (c :: s) = [c] ++ unescape rd.escapeSequence s := by
        rw [unescape, if_neg hbackslash, hescape]
        rfl
      by_cases hblank : isBlank c = true
      · rw [if_pos hblank, if_neg (by decide), if_neg (by rw [heol]; decide)]
        refine ⟨_, [c], rfl, heol, rfl, hplain ?_⟩
        rintro rfl
        exact absurd hblank (by decide)
      · rw [if_neg hblank, if_neg (by decide)]
        by_cases hbackslash : c = backslash
        · rw [if_pos hbackslash]
          exact ⟨_, [], rfl, heol, (List.append_nil _).symm,
            fun s => by rw [unescape, if_pos hbackslash]; rfl⟩
        · rw [if_neg hbackslash, readText, if_neg (by simp [heol]), if_neg (by simp [heol])]
          exact ⟨_, [c], rfl, heol, rfl, hplain hbackslash⟩

end LocReader

section

variable {behind : ℕ → List UInt8}

theorem scanTo_inLine (behind : ℕ → List UInt8) : ∀ {s : List UInt8} (pos : ℕ) {rd : LocReader},
    OneLine s →
    rd.eol = false → (rd.buf ++ unescape rd.escapeSequence s).length < maxLine →
    ∃ rd', scanTo behind pos rd s = ([], some rd') ∧ rd'.eol = false ∧
      rd'.buf = rd.buf ++ unescape rd.escapeSequence s := by
  intro s
  induction s with
  | nil =>
      intro pos rd _ heol _
      refine ⟨rd, rfl, heol, ?_⟩
      cases rd.escapeSequence with
      | true => exact (List.append_nil _).symm
      | false => exact (List.append_nil _).symm
  | cons c s ih =>
      intro pos rd hs heol hlen
      obtain ⟨hcr, hlf⟩ := hs c List.mem_cons_self
      obtain ⟨rd₁, out, hread, heol₁, hbuf₁, hrest⟩ := rd.read_inLine (behind pos) heol hcr hlf
      rw [hrest, ← List.append_assoc, ← hbuf₁] at hlen ⊢
      obtain ⟨rd', hscan, heol', hbuf'⟩ := ih (pos + 1) hs.tail heol₁ hlen
      have hfits : rd₁.buf.length < maxLine := by
        rw [List.length_append] at hlen
        omega
      refine ⟨rd', ?_, heol', hbuf'⟩
      rw [scanTo, hread]
      dsimp only
      rw [if_neg (Nat.not_le.mpr hfits), hscan]
      rfl

/-! ## Behind a line -/

/-- The line is in the buffer, behind its end. -/
structure LocReader.Holds (rd : LocReader) (line : List UInt8) : Prop where
  between : rd.Between
  buf : rd.buf = line
  r : rd.r = (line.rdropWhile isBlank).length - 1

theorem scanTo_restOfLine (behind : ℕ → List UInt8) (pos : ℕ) (rd : LocReader) {s : List UInt8}
    (hs : OneLine s) (heol : rd.eol = false)
    (hlen : (rd.buf ++ unescape rd.escapeSequence s).length < maxLine) :
    ∃ rd', scanTo behind pos rd (s ++ [cr, lf]) = ([], some rd') ∧
      rd'.Holds (rd.buf ++ unescape rd.escapeSequence s) := by
  obtain ⟨rd₁, hscan, heol₁, hbuf₁⟩ := scanTo_inLine behind pos hs heol hlen
  rw [← hbuf₁] at hlen ⊢
  obtain ⟨rd', hcrlf, hbetween, hbuf, hr⟩ :=
    scanTo_crlf behind (pos + s.length) (fun _ h => absurd h List.not_mem_nil) hlen
  refine ⟨rd', ?_, hbetween, hbuf, ?_⟩
  · rw [scanTo_append, hscan]
    dsimp only
    rw [hcrlf]
    rfl
  · rw [hr, LocReader.endLine, heol₁]
    rfl

/-- A line that goes on with the string at the end of the one before it. -/
def joinTo (line s : List UInt8) : List UInt8 :=
  (line.rdropWhile isBlank).dropLast ++ unescape false s

/-- The line ends with a quote, blanks aside. -/
def EndsWithQuote (line : List UInt8) : Prop := (line.rdropWhile isBlank).getLast? = some quote

instance (line : List UInt8) : Decidable (EndsWithQuote line) :=
  inferInstanceAs (Decidable (_ = _))

theorem LocReader.Holds.quote {rd : LocReader} {line : List UInt8} (h : rd.Holds line)
    (hquote : EndsWithQuote line) : rd.buf[rd.r]? = some quote := by
  have hsplit : line = line.rdropWhile isBlank ++ line.rtakeWhile isBlank :=
    (List.rdropWhile_append_rtakeWhile ..).symm
  have hlast : (line.rdropWhile isBlank)[(line.rdropWhile isBlank).length - 1]? =
      some Ascii.quote := by
    rw [← List.getLast?_eq_getElem?]
    exact hquote
  rw [h.buf, h.r]
  refine (congrArg (·[(line.rdropWhile isBlank).length - 1]?) hsplit).trans ?_
  exact (List.getElem?_append_left (List.getElem?_eq_some_iff.mp hlast).1).trans hlast

theorem LocReader.Holds.take {rd : LocReader} {line : List UInt8} (h : rd.Holds line) :
    rd.buf.take rd.r = (line.rdropWhile isBlank).dropLast := by
  have hsplit : line = line.rdropWhile isBlank ++ line.rtakeWhile isBlank :=
    (List.rdropWhile_append_rtakeWhile ..).symm
  rw [h.buf, h.r, List.dropLast_eq_take]
  exact (congrArg (List.take _) hsplit).trans (List.take_append_of_le_length (Nat.sub_le _ 1))

/-! ## Lines -/

def Blanks (s : List UInt8) : Prop := ∀ c ∈ s, isBlank c = true

instance (s : List UInt8) : Decidable (Blanks s) := List.decidableBAll _ s

theorem Blanks.isGap {w : List UInt8} (h : Blanks w) : IsGap w := fun c hc => .inl (h c hc)

end

/-- A line of a section, without its end -/
inductive LocLine where
  | blank (w : List UInt8)
  | begins (indent : List UInt8) (c : UInt8) (s : List UInt8)
  /-- it goes on with a string -/
  | more (indent s : List UInt8)

namespace LocLine

def bytes : LocLine → List UInt8
  | blank w => w
  | begins indent c s => indent ++ c :: s
  | more indent s => indent ++ quote :: s

/-- The line is what it is said to be. -/
def Valid : LocLine → Prop
  | blank w => Blanks w
  | begins indent c _ => Blanks indent ∧ BeginsLine c
  | more indent _ => Blanks indent

/-- The lines with the strings put together, from a line on that may go on. -/
def joined : (line : List UInt8) → List LocLine → List (List UInt8)
  | line, [] => [line]
  | line, blank _ :: ls => joined line ls
  | line, begins _ c s :: ls => line :: joined (unescape false (c :: s)) ls
  | line, more _ s :: ls => joined (joinTo line s) ls

/-- Where a line goes on there is a string. -/
def Continues : (line : List UInt8) → List LocLine → Prop
  | _, [] => True
  | line, blank _ :: ls => Continues line ls
  | _, begins _ c s :: ls => Continues (unescape false (c :: s)) ls
  | line, more _ s :: ls => EndsWithQuote line ∧ Continues (joinTo line s) ls

def Fits : (line : List UInt8) → List LocLine → Prop
  | line, [] => line.length < maxLine
  | line, blank _ :: ls => Fits line ls
  | line, begins _ c s :: ls => line.length < maxLine ∧ Fits (unescape false (c :: s)) ls
  | line, more _ s :: ls => line.length < maxLine ∧ Fits (joinTo line s) ls

instance : (l : LocLine) → Decidable l.Valid
  | blank w => inferInstanceAs (Decidable (Blanks w))
  | begins indent c _ => inferInstanceAs (Decidable (Blanks indent ∧ BeginsLine c))
  | more indent _ => inferInstanceAs (Decidable (Blanks indent))

def decidableContinues : (line : List UInt8) → (ls : List LocLine) → Decidable (Continues line ls)
  | _, [] => .isTrue trivial
  | line, blank _ :: ls => decidableContinues line ls
  | _, begins _ c s :: ls => decidableContinues (unescape false (c :: s)) ls
  | line, more _ s :: ls =>
      have := decidableContinues (joinTo line s) ls
      inferInstanceAs (Decidable (EndsWithQuote line ∧ Continues (joinTo line s) ls))

instance (line : List UInt8) (ls : List LocLine) : Decidable (Continues line ls) :=
  decidableContinues line ls

def decidableFits : (line : List UInt8) → (ls : List LocLine) → Decidable (Fits line ls)
  | line, [] => inferInstanceAs (Decidable (line.length < maxLine))
  | line, blank _ :: ls => decidableFits line ls
  | line, begins _ c s :: ls =>
      have := decidableFits (unescape false (c :: s)) ls
      inferInstanceAs (Decidable (line.length < maxLine ∧ Fits (unescape false (c :: s)) ls))
  | line, more _ s :: ls =>
      have := decidableFits (joinTo line s) ls
      inferInstanceAs (Decidable (line.length < maxLine ∧ Fits (joinTo line s) ls))

instance (line : List UInt8) (ls : List LocLine) : Decidable (Fits line ls) :=
  decidableFits line ls

theorem Fits.length {line : List UInt8} {ls : List LocLine} (h : Fits line ls) :
    line.length < maxLine := by
  induction ls with
  | nil => exact h
  | cons l ls ih =>
      cases l with
      | blank w => exact ih h
      | begins indent c s => exact h.1
      | more indent s => exact h.1

end LocLine

/-! ## Reading them -/

section

variable (behind : ℕ → List UInt8) (pos : ℕ) {rd : LocReader} {line s indent : List UInt8}

theorem scanTo_blankLine (h : rd.Holds line) (hlen : line.length < maxLine) {w : List UInt8}
    (hw : Blanks w) : scanTo behind pos rd (w ++ [cr, lf]) = ([], some rd) := by
  refine scanTo_gap (fun c hc => ?_) h.between (h.buf ▸ hlen)
  rcases List.mem_append.mp hc with hc | hc
  · exact .inl (hw c hc)
  · exact .inr (by simpa using hc)

theorem scanTo_begins (h : rd.Holds line) (hlen : line.length < maxLine)
    (hindent : Blanks indent) {c : UInt8} (hc : BeginsLine c) (hs : OneLine s)
    (hfits : (unescape false (c :: s)).length < maxLine) :
    ∃ rd', scanTo behind pos rd (indent ++ c :: s ++ [cr, lf]) = ([cstr line], some rd') ∧
      rd'.Holds (unescape false (c :: s)) := by
  have htext : unescape false (c :: s) = [c] ++ unescape false s := by
    rw [unescape, if_neg hc.backslash]
    rfl
  rw [htext] at hfits ⊢
  have hone : ¬maxLine ≤ ((LocReader.inLine [c]).resize rd.bufsize).buf.length :=
    show ¬32766 ≤ 1 by decide
  obtain ⟨rd', hscan, hholds⟩ := scanTo_restOfLine behind (pos + indent.length + 1)
    ((LocReader.inLine [c]).resize rd.bufsize) hs rfl hfits
  refine ⟨rd', ?_, hholds⟩
  rw [List.append_assoc, List.cons_append, scanTo_append,
    scanTo_gap hindent.isGap h.between (h.buf ▸ hlen)]
  dsimp only
  rw [scanTo, h.between.read_next hc, h.buf]
  dsimp only
  rw [if_neg hone, hscan]
  rfl

theorem scanTo_more (h : rd.Holds line) (hlen : line.length < maxLine)
    (hindent : Blanks indent) (hquote : EndsWithQuote line) (hs : OneLine s)
    (hfits : (joinTo line s).length < maxLine) :
    ∃ rd', scanTo behind pos rd (indent ++ quote :: s ++ [cr, lf]) = ([], some rd') ∧
      rd'.Holds (joinTo line s) := by
  have hread (behind : List UInt8) : rd.read behind quote =
      ({ rd with buf := rd.buf.take rd.r, terminated := false, eol := false }, none) := by
    rw [LocReader.read, if_neg (by decide), if_neg (by decide),
      if_neg (by rw [h.between.escapeSequence]; decide), if_neg (by decide), LocReader.readText,
      if_pos ⟨h.between.eol, rfl, h.quote hquote⟩]
  have hbuf : joinTo line s = rd.buf.take rd.r ++ unescape rd.escapeSequence s := by
    rw [joinTo, ← h.take, h.between.escapeSequence]
  have hshort : (rd.buf.take rd.r).length < maxLine :=
    (List.length_take_le' _ _).trans_lt (h.buf ▸ hlen)
  rw [hbuf] at hfits ⊢
  obtain ⟨rd', hscan, hholds⟩ := scanTo_restOfLine behind (pos + indent.length + 1)
    { rd with buf := rd.buf.take rd.r, terminated := false, eol := false } hs rfl hfits
  refine ⟨rd', ?_, hholds⟩
  rw [List.append_assoc, List.cons_append, scanTo_append,
    scanTo_gap hindent.isGap h.between (h.buf ▸ hlen)]
  dsimp only
  rw [scanTo, hread]
  dsimp only
  rw [if_neg (Nat.not_le.mpr hshort), hscan]
  rfl

/-- The first line, with the blanks in front of it -/
theorem scanTo_firstLine (hs : OneLine s) (hfits : (unescape false s).length < maxLine) :
    ∃ rd', scanTo behind pos .init (s ++ [cr, lf]) = ([], some rd') ∧
      rd'.Holds (unescape false s) :=
  scanTo_restOfLine behind pos .init hs rfl hfits

end

/-! ## A run of lines -/

/-- Lines that are not blank, without the blanks in front -/
def nonBlank (lines : List (List UInt8)) : List (List UInt8) :=
  (lines.map (·.dropWhile isBlank)).filter (· ≠ [])

/-- The line is empty, or it begins with a character of its own. -/
def Starts (line : List UInt8) : Prop := line = [] ∨ ∃ c s, line = c :: s ∧ BeginsLine c

/-- A line of the file, without its end -/
structure IsLocLine (s : List UInt8) : Prop where
  oneLine : OneLine s
  noNul : nul ∉ s
  length : s.length ≤ 1022

instance (s : List UInt8) : Decidable (IsLocLine s) :=
  decidable_of_iff (OneLine s ∧ nul ∉ s ∧ s.length ≤ 1022)
    ⟨fun ⟨hone, hnul, hlen⟩ => ⟨hone, hnul, hlen⟩, fun h => ⟨h.oneLine, h.noNul, h.length⟩⟩

section

variable {line s pre : List UInt8}

theorem nul_not_mem_unescape : ∀ {s : List UInt8} {esc : Bool}, nul ∉ s → nul ∉ unescape esc s := by
  intro s
  induction s with
  | nil =>
      intro esc _
      cases esc with
      | true => exact List.not_mem_nil
      | false => exact List.not_mem_nil
  | cons c s ih =>
      intro esc h
      rw [List.mem_cons, not_or] at h
      cases esc with
      | true =>
          rw [unescape, List.mem_append, not_or]
          refine ⟨?_, ih h.2⟩
          split
          case isTrue => exact List.not_mem_nil
          case isFalse =>
              unfold LocReader.escaped
              split
              · decide
              · split
                · decide
                · split
                  · decide
                  · decide
      | false =>
          rw [unescape]
          split
          case isTrue => exact ih h.2
          case isFalse =>
              rw [List.mem_cons, not_or]
              exact ⟨h.1, ih h.2⟩

theorem nonBlank_cons (line : List UInt8) (lines : List (List UInt8)) :
    nonBlank (line :: lines) = nonBlank [line] ++ nonBlank lines := by
  simp only [nonBlank, List.map_cons, List.map_nil]
  rw [← List.filter_append]
  rfl

theorem Starts.dropWhile (h : Starts line) : line.dropWhile isBlank = line := by
  rcases h with rfl | ⟨c, s, rfl, hc⟩
  · rfl
  · rw [List.dropWhile_cons_of_neg (by rw [hc.blank]; decide)]

theorem nonBlank_of_starts (h : Starts line) (hpre : Blanks pre) :
    nonBlank [pre ++ line] = [line].filter (· ≠ []) := by
  rw [nonBlank, List.map_singleton, List.dropWhile_append_of_pos hpre, h.dropWhile]

theorem rdropWhile_append (pre : List UInt8) (h : EndsWithQuote line) :
    (pre ++ line).rdropWhile isBlank = pre ++ line.rdropWhile isBlank := by
  have hne : (line.reverse.dropWhile isBlank).isEmpty = false := by
    cases hrest : line.reverse.dropWhile isBlank with
    | nil =>
        rw [EndsWithQuote, List.rdropWhile, hrest] at h
        cases h
    | cons c s => rfl
  rw [List.rdropWhile, List.rdropWhile, List.reverse_append, List.dropWhile_append, hne,
    if_neg Bool.false_ne_true, List.reverse_append, List.reverse_reverse]

theorem EndsWithQuote.ne_nil (h : EndsWithQuote line) : line.rdropWhile isBlank ≠ [] := by
  intro hnil
  rw [EndsWithQuote, hnil] at h
  cases h

theorem EndsWithQuote.append (h : EndsWithQuote line) (pre : List UInt8) :
    EndsWithQuote (pre ++ line) := by
  rw [EndsWithQuote, rdropWhile_append pre h, List.getLast?_append, h]
  rfl

theorem joinTo_append (pre s : List UInt8) (h : EndsWithQuote line) :
    joinTo (pre ++ line) s = pre ++ joinTo line s := by
  rw [joinTo, joinTo, rdropWhile_append pre h, List.dropLast_append_of_ne_nil h.ne_nil,
    List.append_assoc]

theorem Starts.joinTo (h : Starts line) (hquote : EndsWithQuote line) (s : List UInt8) :
    Starts (joinTo line s) := by
  obtain ⟨back, hsplit⟩ : line.rdropWhile isBlank <+: line := List.rdropWhile_prefix ..
  rcases h with rfl | ⟨c, t, rfl, hc⟩
  · exact absurd rfl hquote.ne_nil
  · cases hfront : (c :: t).rdropWhile isBlank with
    | nil => exact absurd hfront hquote.ne_nil
    | cons d front =>
        rw [hfront] at hsplit
        obtain ⟨rfl, -⟩ := List.cons.inj hsplit
        cases front with
        | nil =>
            rw [EndsWithQuote, hfront] at hquote
            exact absurd (Option.some.inj hquote) hc.quote
        | cons e front =>
            refine .inr ⟨d, (e :: front).dropLast ++ unescape false s, ?_, hc⟩
            rw [Nawam.joinTo, hfront]
            rfl

theorem nul_not_mem_joinTo (hline : nul ∉ line) (hs : nul ∉ s) : nul ∉ joinTo line s := by
  rw [joinTo, List.mem_append, not_or]
  refine ⟨fun h => hline ?_, nul_not_mem_unescape hs⟩
  exact (List.rdropWhile_prefix ..).subset (List.mem_of_mem_dropLast h)

theorem cstr_of_noNul (h : nul ∉ line) : cstr line = line :=
  List.takeWhile_eq_self_iff.mpr fun _ hc => decide_eq_true fun heq => h (heq ▸ hc)

end

/-- What the loop has come to behind some lines: the lines that it has passed, and the
one that is in its buffer. -/
structure LinesRead (behind : ℕ → List UInt8) (pos : ℕ) (rd : LocReader) (s : List UInt8)
    (passed : List (List UInt8)) (last : List UInt8) (rd' : LocReader) : Prop where
  scan : scanTo behind pos rd s = (passed, some rd')
  holds : rd'.Holds last
  length : last.length < maxLine
  noNul : nul ∉ last

def LocLine.text (ls : List LocLine) : List UInt8 := ls.flatMap (·.bytes ++ [cr, lf])

theorem LinesRead.append {behind : ℕ → List UInt8} {pos : ℕ} {rd rd₁ rd' : LocReader}
    {s t last : List UInt8} {passed₁ passed : List (List UInt8)}
    (hscan : scanTo behind pos rd s = (passed₁, some rd₁))
    (h : LinesRead behind (pos + s.length) rd₁ t passed last rd') :
    LinesRead behind pos rd (s ++ t) (passed₁ ++ passed) last rd' := by
  refine ⟨?_, h.holds, h.length, h.noNul⟩
  rw [scanTo_append, hscan]
  dsimp only
  rw [h.scan]

theorem LinesRead.cons {behind : ℕ → List UInt8} {pos : ℕ} {rd rd₁ rd' : LocReader}
    {l : LocLine} {ls : List LocLine} {last : List UInt8} {passed₁ passed : List (List UInt8)}
    (hscan : scanTo behind pos rd (l.bytes ++ [cr, lf]) = (passed₁, some rd₁))
    (h : LinesRead behind (pos + (l.bytes ++ [cr, lf]).length) rd₁ (LocLine.text ls) passed
      last rd') :
    LinesRead behind pos rd (LocLine.text (l :: ls)) (passed₁ ++ passed) last rd' := by
  rw [LocLine.text, List.flatMap_cons]
  exact .append hscan h

theorem blanks_nil : Blanks [] := fun _ h => absurd h List.not_mem_nil

theorem starts_unescape {c : UInt8} (hc : BeginsLine c) (s : List UInt8) :
    Starts (unescape false (c :: s)) :=
  .inr ⟨c, unescape false s, by rw [unescape, if_neg hc.backslash], hc⟩

/-- What fits with more blanks in front of it -/
theorem LocLine.Fits.length_of_le {line pre pre' : List UInt8} {ls : List LocLine}
    (h : LocLine.Fits (pre' ++ line) ls) (hle : pre.length ≤ pre'.length) :
    (pre ++ line).length < maxLine := by
  have hlen := h.length
  rw [List.length_append] at hlen ⊢
  omega

/-- **A run of lines** is passed with the strings put together. The line in the buffer
may have blanks in front of it. -/
theorem scanTo_lines (behind : ℕ → List UInt8) : ∀ {ls : List LocLine} {line pre pre' : List UInt8}
    {rd : LocReader} (pos : ℕ), (∀ l ∈ ls, l.Valid ∧ IsLocLine l.bytes) → rd.Holds (pre ++ line) →
    Blanks pre → pre.length ≤ pre'.length → nul ∉ pre ++ line → Starts line →
    LocLine.Continues line ls → LocLine.Fits (pre' ++ line) ls →
    ∃ passed last rd', LinesRead behind pos rd (LocLine.text ls) passed last rd' ∧
      nonBlank (passed ++ [last]) = (LocLine.joined line ls).filter (· ≠ []) := by
  intro ls
  induction ls with
  | nil =>
      intro line pre pre' rd pos _ hrd hpre hle hnul hstarts _ hfits
      exact ⟨[], pre ++ line, rd, ⟨rfl, hrd, hfits.length_of_le hle, hnul⟩,
        nonBlank_of_starts hstarts hpre⟩
  | cons l ls ih =>
      intro line pre pre' rd pos hvalid hrd hpre hle hnul hstarts hcontinues hfits
      obtain ⟨⟨hl, hbytes⟩, hrest⟩ := List.forall_mem_cons.mp hvalid
      have hlen := hfits.length_of_le hle
      cases l with
      | blank w =>
          obtain ⟨passed, last, rd', hread, hjoined⟩ := ih (pos + _) hrest hrd hpre hle hnul
            hstarts hcontinues hfits
          exact ⟨_, last, rd', .cons (scanTo_blankLine behind pos hrd hlen hl) hread, hjoined⟩
      | begins indent c s =>
          obtain ⟨hindent, hc⟩ := hl
          have hs : OneLine s := hbytes.oneLine.of_append.2.tail
          have hnul' : nul ∉ unescape false (c :: s) :=
            nul_not_mem_unescape fun h => hbytes.noNul (List.mem_append_right indent h)
          obtain ⟨rd₁, hscan, hrd₁⟩ :=
            scanTo_begins behind pos hrd hlen hindent hc hs hfits.2.length
          have hrd₁ : rd₁.Holds ([] ++ unescape false (c :: s)) := hrd₁
          have hfits₁ : LocLine.Fits ([] ++ unescape false (c :: s)) ls := hfits.2
          obtain ⟨passed, last, rd', hread, hjoined⟩ := ih (pos + _) hrest hrd₁ blanks_nil
            (le_refl 0) hnul' (starts_unescape hc s) hcontinues hfits₁
          refine ⟨_, last, rd', .cons hscan hread, ?_⟩
          rw [List.singleton_append, List.cons_append, nonBlank_cons, hjoined, cstr_of_noNul hnul,
            nonBlank_of_starts hstarts hpre, ← List.filter_append]
          rfl
      | more indent s =>
          obtain ⟨hquote, hcontinues⟩ := hcontinues
          have hs : OneLine s := hbytes.oneLine.of_append.2.tail
          have hfits₁ := hfits.2
          rw [joinTo_append pre' s hquote] at hfits₁
          have hlen' := hfits₁.length_of_le hle
          have hnul' : nul ∉ pre ++ joinTo line s := by
            rw [← joinTo_append pre s hquote]
            exact nul_not_mem_joinTo hnul fun h =>
              hbytes.noNul (List.mem_append_right indent (List.mem_cons_of_mem _ h))
          obtain ⟨rd₁, hscan, hrd₁⟩ := scanTo_more behind pos hrd hlen hl (hquote.append pre) hs
            (by rw [joinTo_append pre s hquote]; exact hlen')
          rw [joinTo_append pre s hquote] at hrd₁
          obtain ⟨passed, last, rd', hread, hjoined⟩ := ih (pos + _) hrest hrd₁ hpre hle hnul'
            (hstarts.joinTo hquote s) hcontinues hfits₁
          exact ⟨_, last, rd', .cons hscan hread, hjoined⟩

/-! ## A block -/

/-- The lines of a block: strings are only continued where there is one, and what is put
together fits into the buffer, with the blanks in front of the first line. -/
structure IsBlock (body : List LocLine) : Prop where
  valid : ∀ l ∈ body, l.Valid ∧ IsLocLine l.bytes
  continues : LocLine.Continues [] body
  fits : ∀ first ls, body = first :: ls → LocLine.Fits (unescape false first.bytes) ls

instance (body : List LocLine) : Decidable (IsBlock body) :=
  decidable_of_iff ((∀ l ∈ body, l.Valid ∧ IsLocLine l.bytes) ∧ LocLine.Continues [] body ∧
      LocLine.Fits (unescape false (body.headD (.blank [])).bytes) body.tail)
    ⟨fun ⟨hvalid, hcontinues, hfits⟩ => ⟨hvalid, hcontinues, by rintro _ _ rfl; exact hfits⟩,
      fun h => ⟨h.valid, h.continues, by
        cases body with
        | nil => decide
        | cons first ls => exact h.fits first ls rfl⟩⟩

/-- The lines of a block that are not blank, with the strings put together. -/
def blockLines (body : List LocLine) : List (List UInt8) :=
  (LocLine.joined [] body).filter (· ≠ [])

theorem unescape_blanks {w : List UInt8} (hw : Blanks w) (s : List UInt8) :
    unescape false (w ++ s) = w ++ unescape false s := by
  induction w with
  | nil => rfl
  | cons c w ih =>
      have hc := hw c List.mem_cons_self
      have hbackslash : c ≠ backslash := by
        rintro rfl
        exact absurd hc (by decide)
      rw [List.cons_append, unescape, if_neg hbackslash,
        ih fun d hd => hw d (List.mem_cons_of_mem c hd)]
      rfl

/-- Behind the first line of a block. The line in the buffer has blanks in front of it,
but no more than the first line had. -/
structure FirstRead (behind : ℕ → List UInt8) (pos : ℕ) (s : List UInt8) (first : LocLine)
    (ls : List LocLine) (passed : List (List UInt8)) (rd : LocReader)
    (pre indent line : List UInt8) : Prop where
  scan : scanTo behind pos .init s = (passed, some rd)
  holds : rd.Holds (pre ++ line)
  blanks : Blanks pre
  length : pre.length ≤ indent.length
  noNul : nul ∉ pre ++ line
  starts : Starts line
  continues : LocLine.Continues line ls
  fits : LocLine.Fits (indent ++ line) ls
  lines : ∀ lines, nonBlank (passed ++ lines) = nonBlank lines
  joined : blockLines (first :: ls) = (LocLine.joined line ls).filter (· ≠ [])

/-- The end of the line in front of a block -/
theorem scanTo_lf (behind : ℕ → List UInt8) (pos : ℕ) :
    ∃ rd, scanTo behind pos .init [lf] = ([], some rd) ∧ rd.Holds [] :=
  ⟨LocReader.init.endLine, rfl, ⟨rfl, rfl, rfl⟩, rfl, rfl⟩

section

variable (behind : ℕ → List UInt8) (pos : ℕ) {eol : List UInt8} {ls : List LocLine}

theorem firstRead_blank {w : List UInt8} (heol : eol = [] ∨ eol = [lf])
    (h : IsBlock (.blank w :: ls)) : ∃ passed rd pre indent line,
      FirstRead behind pos (eol ++ (w ++ [cr, lf])) (.blank w) ls passed rd pre indent line := by
  obtain ⟨hw, hbytes⟩ := h.valid _ List.mem_cons_self
  have hblanks : unescape false w = w ++ [] :=
    (congrArg (unescape false) (List.append_nil w).symm).trans (unescape_blanks hw [])
  have hfits : LocLine.Fits (w ++ []) ls := hblanks ▸ h.fits _ ls rfl
  rcases heol with rfl | rfl
  · obtain ⟨rd, hscan, hrd⟩ := scanTo_firstLine behind pos hbytes.oneLine
      (show (unescape false w).length < maxLine from (h.fits _ ls rfl).length)
    have hrd : rd.Holds (w ++ []) := hblanks ▸ hrd
    have hnul : nul ∉ w ++ [] := (List.append_nil w).symm ▸ hbytes.noNul
    exact ⟨[], rd, w, w, [], hscan, hrd, hw, le_refl _, hnul, .inl rfl,
      h.continues, hfits, fun _ => rfl, rfl⟩
  · obtain ⟨rd, hlf, hrd⟩ := scanTo_lf behind pos
    refine ⟨[], rd, [], w, [], ?_, hrd, blanks_nil, Nat.zero_le _, List.not_mem_nil, .inl rfl,
      h.continues, hfits, fun _ => rfl, rfl⟩
    rw [scanTo_append, hlf]
    dsimp only
    rw [scanTo_blankLine behind _ hrd (by decide) hw]
    rfl

theorem firstRead_begins {indent s : List UInt8} {c : UInt8} (heol : eol = [] ∨ eol = [lf])
    (h : IsBlock (.begins indent c s :: ls)) : ∃ passed rd pre indent' line,
      FirstRead behind pos (eol ++ (indent ++ c :: s ++ [cr, lf])) (.begins indent c s) ls passed
        rd pre indent' line := by
  obtain ⟨⟨hindent, hc⟩, hbytes⟩ := h.valid _ List.mem_cons_self
  have hs : OneLine s := hbytes.oneLine.of_append.2.tail
  have hfits : LocLine.Fits (indent ++ unescape false (c :: s)) ls :=
    unescape_blanks hindent (c :: s) ▸ h.fits _ ls rfl
  have hstarts := starts_unescape hc s
  rcases heol with rfl | rfl
  · obtain ⟨rd, hscan, hrd⟩ := scanTo_firstLine behind pos hbytes.oneLine
      (show (unescape false (indent ++ c :: s)).length < maxLine from (h.fits _ ls rfl).length)
    have hnul : nul ∉ unescape false (indent ++ c :: s) := nul_not_mem_unescape hbytes.noNul
    have hrd : rd.Holds (indent ++ unescape false (c :: s)) := unescape_blanks hindent _ ▸ hrd
    rw [unescape_blanks hindent] at hnul
    exact ⟨[], rd, indent, indent, _, hscan, hrd, hindent, le_refl _, hnul, hstarts, h.continues,
      hfits, fun _ => rfl, rfl⟩
  · obtain ⟨rd, hlf, hrd⟩ := scanTo_lf behind pos
    have hlen : (unescape false (c :: s)).length < maxLine := by
      have := hfits.length
      rw [List.length_append] at this
      omega
    obtain ⟨rd', hscan, hrd'⟩ :=
      scanTo_begins behind (pos + [lf].length) hrd (by decide) hindent hc hs hlen
    have hnul : nul ∉ unescape false (c :: s) :=
      nul_not_mem_unescape fun h => hbytes.noNul (List.mem_append_right indent h)
    refine ⟨[[]], rd', [], indent, _, ?_, hrd', blanks_nil, Nat.zero_le _, hnul, hstarts,
      h.continues, hfits, fun lines => ?_, rfl⟩
    · rw [scanTo_append, hlf]
      dsimp only
      rw [hscan]
      rfl
    · rw [List.singleton_append, nonBlank_cons]
      rfl

/-- A block, which may begin with the end of the line in front of it. -/
theorem scanTo_block {body : List LocLine} (hne : body ≠ []) (heol : eol = [] ∨ eol = [lf])
    (h : IsBlock body) : ∃ passed last rd,
      LinesRead behind pos .init (eol ++ LocLine.text body) passed last rd ∧
      nonBlank (passed ++ [last]) = blockLines body := by
  obtain ⟨first, ls, rfl⟩ := List.exists_cons_of_ne_nil hne
  obtain ⟨passed₁, rd₁, pre, indent, line, hfirst⟩ : ∃ passed rd pre indent line,
      FirstRead behind pos (eol ++ (first.bytes ++ [cr, lf])) first ls passed rd pre indent
        line := by
    cases first with
    | blank w => exact firstRead_blank behind pos heol h
    | begins indent c s => exact firstRead_begins behind pos heol h
    | more indent s => exact absurd rfl (h.continues.1.ne_nil)
  obtain ⟨passed, last, rd, hread, hjoined⟩ := scanTo_lines behind (pos + _)
    (fun l hl => h.valid l (List.mem_cons_of_mem first hl)) hfirst.holds hfirst.blanks hfirst.length
    hfirst.noNul hfirst.starts hfirst.continues hfirst.fits
  refine ⟨passed₁ ++ passed, last, rd, ?_, ?_⟩
  · rw [LocLine.text, List.flatMap_cons, ← List.append_assoc]
    exact .append hfirst.scan hread
  · rw [List.append_assoc, hfirst.lines, hjoined, hfirst.joined]

end

/-- **A block of the file** is read up to its end: the end of the file, or a line that
begins in the first column. -/
theorem readSection_block (behind : ℕ → List UInt8) {content front eol rest : List UInt8}
    {body : List LocLine} (hne : body ≠ []) (heol : eol = [] ∨ eol = [lf]) (h : IsBlock body)
    (hcontent : content = front ++ (eol ++ LocLine.text body ++ rest))
    (hrest : ∀ c ∈ rest.head?, BeginsLine c) :
    ∃ lines, readSection behind content front.length
        (front.length + (eol ++ LocLine.text body).length) = (lines, true) ∧
      nonBlank lines = blockLines body := by
  obtain ⟨passed, last, rd, hread, hjoined⟩ := scanTo_block behind front.length hne heol h
  refine ⟨passed ++ [last], ?_, hjoined⟩
  have hlast : cstr rd.buf = last := by
    rw [hread.holds.buf, cstr_of_noNul hread.noNul]
  rw [readSection_eq, hcontent, List.drop_left, scanLoop_append _ _ _ _ (le_refl _), hread.scan]
  dsimp only
  cases rest with
  | nil => rw [scanLoop, hlast]
  | cons c rest =>
      rw [scanLoop, hread.holds.between.read_next (hrest c rfl), hlast]
      dsimp only
      rw [if_pos (Nat.lt_succ_self _)]
      rfl

end Nawam
