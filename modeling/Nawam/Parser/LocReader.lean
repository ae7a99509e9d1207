import Mathlib.Data.List.DropRight
import Nawam.Parser.LocCommand

/-!
# Reading a section of a localization file

The loop of `get_loc_data_file`, which reads a section of the file character by
character and passes lines to `get_loc_data_line`. It takes escape sequences out,
skips what is blank in front of a line, and joins a line that begins with a quote
to one that ends with a quote. So a line is only passed when the first character
of the next one has been read, or at the end of the file.

The terminator of a line is written when its end is read. An escape sequence in
front of the next line goes over it, and then the line goes on with whatever is
in the buffer behind it; these bytes are the parameter `behind`.
-/

namespace Nawam

open Ascii

/-! ## Source -/

/-- The variables of the loop. The bytes up to `i` are in `buf`. -/
structure LocReader where
  buf : List UInt8
  /-- `buf[i] == 0` -/
  terminated : Bool
  r : ℕ
  eol : Bool
  escapeSequence : Bool
  bufsize : ℕ

namespace LocReader

def init : LocReader := ⟨[], false, 0, false, false, 1024⟩

/-- `buf[i++] = c`, one by one -/
def push (rd : LocReader) (s : List UInt8) : LocReader :=
  { rd with buf := rd.buf ++ s, terminated := rd.terminated && s.isEmpty }

def endLine (rd : LocReader) : LocReader :=
  { rd with
    terminated := true
    -- the last character that is not blank, or the first one
    r := if rd.eol then rd.r else (rd.buf.rdropWhile isBlank).length - 1
    eol := true }

/-- What an escape sequence puts into the buffer. -/
def escaped (c : UInt8) : List UInt8 :=
  if c = 110 then [cr, lf]
  else if c = quote then [backslash, quote]
  else if c = backslash then [backslash]
  else []

/-- The line in the buffer, as `get_loc_data_line` sees it. -/
def line (behind : List UInt8) (rd : LocReader) : List UInt8 :=
  cstr (if rd.terminated then rd.buf else rd.buf ++ behind)

/-- A character that is neither blank nor a line end nor escaped. -/
def readText (behind : List UInt8) (rd : LocReader) (c : UInt8) :
    LocReader × Option (List UInt8) :=
  -- collate multiline strings
  if rd.eol ∧ c = quote ∧ rd.buf[rd.r]? = some quote then
    ({ rd with buf := rd.buf.take rd.r, terminated := false, eol := false }, none)
  else if rd.eol then
    ({ rd with buf := [c], terminated := false, eol := false, r := 0 }, some (rd.line behind))
  else (rd.push [c], none)

/-- A character: the variables behind it, and the line that is passed. -/
def read (behind : List UInt8) (rd : LocReader) (c : UInt8) :
    LocReader × Option (List UInt8) :=
  if c = cr ∨ c = lf then
    if rd.escapeSequence then ({ rd with escapeSequence := false }, none)
    else (rd.endLine, none)
  else if isBlank c then
    if rd.escapeSequence then ({ rd with escapeSequence := false }, none)
    else (if rd.eol then rd else rd.push [c], none)
  else if rd.escapeSequence then
    ({ rd.push (escaped c) with escapeSequence := false }, none)
  else if c = backslash then ({ rd with escapeSequence := true }, none)
  else rd.readText behind c

/-- The buffer is made twice as large where two more characters do not fit, up
to 32K. -/
def grow (rd : LocReader) : Option LocReader :=
  if rd.bufsize - 2 ≤ rd.buf.length then
    if 32768 < rd.bufsize * 2 then none else some { rd with bufsize := rd.bufsize * 2 }
  else some rd

end LocReader

/-- The loop from the offset `pos` on: the lines that are passed, and `ret`. -/
def readLoop (behind : ℕ → List UInt8) (stop : ℕ) :
    (pos : ℕ) → LocReader → List UInt8 → List (List UInt8) × Bool
  -- `EOF`
  | _, rd, [] => ([cstr rd.buf], true)
  | pos, rd, c :: s =>
      let (rd, passed) := rd.read (behind pos) c
      if stop < pos + 1 then (passed.toList, true)
      else
        match rd.grow with
        | none => (passed.toList, false)
        | some rd =>
            let (lines, ret) := readLoop behind stop (pos + 1) rd s
            (passed.toList ++ lines, ret)

/-- The loop over a section that is delimited by two offsets. -/
def readSection (behind : ℕ → List UInt8) (content : List UInt8) (start stop : ℕ) :
    List (List UInt8) × Bool :=
  readLoop behind stop start .init (content.drop start)

/-! ## The size of the buffer -/

/-- The characters of a line that are too many for the buffer. -/
abbrev maxLine : ℕ := 32766

namespace LocReader

/-- The buffer has one of its sizes, and two more characters fit. -/
def Sized (rd : LocReader) : Prop :=
  ∃ k ≤ 5, rd.bufsize = 1024 * 2 ^ k ∧ rd.buf.length + 2 < rd.bufsize

def resize (rd : LocReader) (n : ℕ) : LocReader := { rd with bufsize := n }

variable {rd : LocReader} {behind : List UInt8}

theorem sized_init : init.Sized := ⟨0, Nat.zero_le 5, rfl, by decide⟩

/-- A character puts two more into the buffer at most. -/
theorem read_length (behind : List UInt8) (rd : LocReader) (c : UInt8) :
    (rd.read behind c).1.buf.length ≤ rd.buf.length + 2 := by
  have hescaped : (escaped c).length ≤ 2 := by
    unfold escaped
    split
    · exact le_rfl
    · split
      · exact le_rfl
      · split
        · exact Nat.le_succ 1
        · exact Nat.zero_le 2
  unfold read
  split
  · split
    · exact Nat.le_add_right _ 2
    · exact Nat.le_add_right _ 2
  split
  · split
    · exact Nat.le_add_right _ 2
    · dsimp only
      split
      · exact Nat.le_add_right _ 2
      · simp [push]
  split
  · rw [push]
    simpa using hescaped
  split
  · exact Nat.le_add_right _ 2
  · unfold readText
    split
    · simp
    · split
      · simp
      · simp [push]

theorem read_resize (behind : List UInt8) (rd : LocReader) (c : UInt8) (n : ℕ) :
    (rd.resize n).read behind c
      = ((rd.read behind c).1.resize n, (rd.read behind c).2) := by
  -- the branches are chosen without a look at the size
  have hblank : (if rd.eol then rd.resize n else (rd.resize n).push [c])
      = (if rd.eol then rd else rd.push [c]).resize n :=
    (apply_ite (resize · n) (rd.eol = true) rd (rd.push [c])).symm
  change _ = Prod.map (resize · n) id (rd.read behind c)
  unfold read readText
  simp only [apply_ite (Prod.map (resize · n) id), Prod.map_apply, ← hblank]
  rfl

theorem read_bufsize (behind : List UInt8) (rd : LocReader) (c : UInt8) :
    (rd.read behind c).1.bufsize = rd.bufsize := by
  have h := congrArg (·.1.bufsize) (read_resize behind rd c rd.bufsize)
  exact h

/-- The buffer grows until a line is too long. -/
theorem grow_eq (rd' : LocReader) (h : rd.Sized) (hsize : rd'.bufsize = rd.bufsize)
    (hlen : rd'.buf.length ≤ rd.buf.length + 2) :
    if maxLine ≤ rd'.buf.length then rd'.grow = none
    else ∃ n, rd'.grow = some (rd'.resize n) ∧ (rd'.resize n).Sized := by
  obtain ⟨k, hk, hbuf, hfits⟩ := h
  have hmax : maxLine = 32766 := rfl
  unfold grow
  by_cases hroom : rd'.bufsize - 2 ≤ rd'.buf.length
  · rw [if_pos hroom]
    rcases hk.eq_or_lt with rfl | hlt
    · rw [if_pos (by omega), if_pos (by omega)]
    · have hpow : 2 ^ k ≤ 2 ^ 4 := Nat.pow_le_pow_right (by decide) (by omega)
      rw [if_neg (by omega), if_neg (by omega)]
      refine ⟨rd'.bufsize * 2, rfl, k + 1, hlt, ?_, ?_⟩
      · rw [resize, hsize, hbuf, Nat.pow_succ, Nat.mul_assoc]
      · change rd'.buf.length + 2 < rd'.bufsize * 2
        omega
  · have hpow : 2 ^ k ≤ 2 ^ 5 := Nat.pow_le_pow_right (by decide) hk
    rw [if_neg hroom, if_neg (by omega)]
    refine ⟨rd'.bufsize, rfl, k, hk, hsize.trans hbuf, ?_⟩
    change rd'.buf.length + 2 < rd'.bufsize
    omega

end LocReader

/-- The loop, with a limit in place of the buffer. -/
def scanLoop (behind : ℕ → List UInt8) (stop : ℕ) :
    (pos : ℕ) → LocReader → List UInt8 → List (List UInt8) × Bool
  | _, rd, [] => ([cstr rd.buf], true)
  | pos, rd, c :: s =>
      let r := rd.read (behind pos) c
      if stop < pos + 1 then (r.2.toList, true)
      else if maxLine ≤ r.1.buf.length then (r.2.toList, false)
      else
        let rest := scanLoop behind stop (pos + 1) r.1 s
        (r.2.toList ++ rest.1, rest.2)

/-- What the loop does up to an offset, unless a line is too long: the lines that
are passed, and the variables. -/
def scanTo (behind : ℕ → List UInt8) :
    (pos : ℕ) → LocReader → List UInt8 → List (List UInt8) × Option LocReader
  | _, rd, [] => ([], some rd)
  | pos, rd, c :: s =>
      let r := rd.read (behind pos) c
      if maxLine ≤ r.1.buf.length then (r.2.toList, none)
      else
        let rest := scanTo behind (pos + 1) r.1 s
        (r.2.toList ++ rest.1, rest.2)

section

variable {behind : ℕ → List UInt8} {stop : ℕ}

theorem scanLoop_resize (n : ℕ) : ∀ (s : List UInt8) (pos : ℕ) (rd : LocReader),
    scanLoop behind stop pos (rd.resize n) s = scanLoop behind stop pos rd s
  | [], _, _ => rfl
  | c :: s, pos, rd => by
      rw [scanLoop, scanLoop, LocReader.read_resize]
      dsimp only
      rw [scanLoop_resize n s]
      rfl

/-- The sizes of the buffer come to the limit. -/
theorem readLoop_eq : ∀ (s : List UInt8) (pos : ℕ) {rd : LocReader}, rd.Sized →
    readLoop behind stop pos rd s = scanLoop behind stop pos rd s
  | [], _, _, _ => rfl
  | c :: s, pos, rd, h => by
      have hgrow := LocReader.grow_eq (rd.read (behind pos) c).1 h (rd.read_bufsize _ c)
        (rd.read_length _ c)
      rw [readLoop, scanLoop]
      dsimp only
      split
      · rfl
      · split at hgrow
        · rename_i hlong
          rw [hgrow, if_pos hlong]
        · rename_i hfits
          obtain ⟨n, hgrow, hsized⟩ := hgrow
          rw [hgrow, if_neg hfits]
          dsimp only
          rw [readLoop_eq s (pos + 1) hsized, scanLoop_resize]

theorem readSection_eq (content : List UInt8) (start : ℕ) :
    readSection behind content start stop
      = scanLoop behind stop start .init (content.drop start) :=
  readLoop_eq _ _ LocReader.sized_init

/-- Up to an offset in the section, and then on. -/
theorem scanLoop_append (rest : List UInt8) : ∀ (s : List UInt8) (pos : ℕ) (rd : LocReader),
    pos + s.length ≤ stop → scanLoop behind stop pos rd (s ++ rest) =
      match scanTo behind pos rd s with
      | (lines, none) => (lines, false)
      | (lines, some rd) =>
          (lines ++ (scanLoop behind stop (pos + s.length) rd rest).1,
            (scanLoop behind stop (pos + s.length) rd rest).2)
  | [], _, _, _ => rfl
  | c :: s, pos, rd, h => by
      rw [List.length_cons] at h
      rw [List.cons_append, scanLoop, scanTo]
      dsimp only
      rw [if_neg (by omega)]
      split
      case isTrue => rfl
      case isFalse =>
          rw [scanLoop_append rest s (pos + 1) _ (by omega), List.length_cons,
            Nat.add_right_comm pos 1, Nat.add_assoc]
          cases scanTo behind (pos + 1) (rd.read (behind pos) c).1 s with
          | mk lines rd' =>
              cases rd' with
              | none => rfl
              | some rd' =>
                  dsimp only
                  rw [List.append_assoc]

theorem scanTo_append (t : List UInt8) : ∀ (s : List UInt8) (pos : ℕ) (rd : LocReader),
    scanTo behind pos rd (s ++ t) =
      match scanTo behind pos rd s with
      | (lines, none) => (lines, none)
      | (lines, some rd) =>
          (lines ++ (scanTo behind (pos + s.length) rd t).1,
            (scanTo behind (pos + s.length) rd t).2)
  | [], _, _ => rfl
  | c :: s, pos, rd => by
      rw [List.cons_append, scanTo, scanTo]
      dsimp only
      split
      case isTrue => rfl
      case isFalse =>
          rw [scanTo_append t s (pos + 1), List.length_cons, Nat.add_right_comm pos 1,
            Nat.add_assoc]
          cases scanTo behind (pos + 1) (rd.read (behind pos) c).1 s with
          | mk lines rd' =>
              cases rd' with
              | none => rfl
              | some rd' =>
                  dsimp only
                  rw [List.append_assoc]

end

/-! ## Between two lines -/

/-- A line is in the buffer, and what follows has not come to the next one. -/
structure LocReader.Between (rd : LocReader) : Prop where
  terminated : rd.terminated = true
  eol : rd.eol = true
  escapeSequence : rd.escapeSequence = false

/-- Within a line, behind its first character -/
def LocReader.inLine (buf : List UInt8) : LocReader := ⟨buf, false, 0, false, false, 1024⟩

/-- Blanks and line ends -/
def IsGap (w : List UInt8) : Prop := ∀ c ∈ w, isBlank c = true ∨ c = cr ∨ c = lf

structure BeginsLine (c : UInt8) : Prop where
  blank : isBlank c = false
  cr : c ≠ Ascii.cr
  lf : c ≠ Ascii.lf
  quote : c ≠ Ascii.quote
  backslash : c ≠ Ascii.backslash

instance (c : UInt8) : Decidable (BeginsLine c) :=
  decidable_of_iff (isBlank c = false ∧ c ≠ cr ∧ c ≠ lf ∧ c ≠ quote ∧ c ≠ backslash)
    ⟨fun ⟨hblank, hcr, hlf, hquote, hbackslash⟩ => ⟨hblank, hcr, hlf, hquote, hbackslash⟩,
      fun h => ⟨h.blank, h.cr, h.lf, h.quote, h.backslash⟩⟩

namespace LocReader

variable {rd : LocReader} {behind : List UInt8} {c : UInt8}

theorem isBlank_crlf {c : UInt8} (h : isBlank c = true) : c ≠ cr ∧ c ≠ lf := by
  simp only [isBlank, Bool.or_eq_true, decide_eq_true_eq] at h
  rcases h with rfl | rfl
  · exact ⟨by decide, by decide⟩
  · exact ⟨by decide, by decide⟩

/-- Whatever comes before, `CR` and `LF` end the line. -/
theorem read_crlf (rd : LocReader) (behind behind' : List UInt8) :
    ∃ rd₁ rd₂, rd.read behind cr = (rd₁, none) ∧ rd₁.read behind' lf = (rd₂, none) ∧
      rd₁.buf = rd.buf ∧ rd₂.buf = rd.buf ∧ rd₂.r = rd.endLine.r ∧ rd₂.Between := by
  have hlf (rd : LocReader) (h : rd.escapeSequence = false) :
      rd.read behind' lf = (rd.endLine, none) := by
    rw [read, if_pos (.inr rfl), if_neg (by rw [h]; decide)]
  cases hescape : rd.escapeSequence with
  | true =>
      refine ⟨{ rd with escapeSequence := false }, _, ?_, hlf _ rfl, rfl, rfl, rfl, rfl, rfl, rfl⟩
      rw [read, if_pos (.inl rfl), if_pos hescape]
  | false =>
      refine ⟨rd.endLine, _, ?_, hlf _ hescape, rfl, rfl, rfl, rfl, rfl, hescape⟩
      rw [read, if_pos (.inl rfl), if_neg (by rw [hescape]; decide)]

theorem Between.read_gap (h : rd.Between) (hc : isBlank c = true ∨ c = cr ∨ c = lf) :
    rd.read behind c = (rd, none) := by
  obtain ⟨hterminated, heol, hescape⟩ := h
  unfold read
  rcases hc with hblank | hend
  · have hne := isBlank_crlf hblank
    rw [if_neg (not_or.mpr hne), if_pos hblank, if_neg (by rw [hescape]; decide), if_pos heol]
  · rw [if_pos hend, if_neg (by rw [hescape]; decide), endLine, if_pos heol]
    obtain ⟨buf, terminated, r, eol, escape, bufsize⟩ := rd
    cases hterminated
    cases heol
    rfl

theorem Between.read_next (h : rd.Between) (hc : BeginsLine c) :
    rd.read behind c = ((inLine [c]).resize rd.bufsize, some (cstr rd.buf)) := by
  obtain ⟨hterminated, heol, hescape⟩ := h
  rw [read, if_neg (not_or.mpr ⟨hc.cr, hc.lf⟩), if_neg (by rw [hc.blank]; decide),
    if_neg (by rw [hescape]; decide), if_neg hc.backslash, readText,
    if_neg (fun h => hc.quote h.2.1), if_pos heol, line, if_pos hterminated, hescape]
  rfl

theorem read_plain {buf : List UInt8} (hcr : c ≠ cr) (hlf : c ≠ lf) (hbackslash : c ≠ backslash) :
    (inLine buf).read behind c = (inLine (buf ++ [c]), none) := by
  rw [read, if_neg (not_or.mpr ⟨hcr, hlf⟩)]
  by_cases hblank : isBlank c = true
  · rw [if_pos hblank]
    rfl
  · have hescape : ¬(inLine buf).escapeSequence = true := Bool.false_ne_true
    rw [if_neg hblank, if_neg hescape, if_neg hbackslash]
    rfl

theorem read_init (hc : BeginsLine c) : init.read behind c = (inLine [c], none) :=
  read_plain hc.cr hc.lf hc.backslash

end LocReader

section

variable {behind : ℕ → List UInt8} {stop : ℕ}

theorem scanTo_gap : ∀ {w : List UInt8} {pos : ℕ} {rd : LocReader}, IsGap w →
    rd.Between → rd.buf.length < maxLine → scanTo behind pos rd w = ([], some rd)
  | [], _, _, _, _, _ => rfl
  | c :: w, pos, rd, hw, hrd, hlen => by
      rw [scanTo, hrd.read_gap (hw c List.mem_cons_self)]
      dsimp only
      rw [if_neg (Nat.not_le.mpr hlen),
        scanTo_gap (fun d hd => hw d (List.mem_cons_of_mem c hd)) hrd hlen]
      rfl

/-- Up to a line end and a gap behind it. -/
theorem scanTo_crlf (behind : ℕ → List UInt8) (pos : ℕ) {w : List UInt8} {rd : LocReader}
    (hw : IsGap w) (hlen : rd.buf.length < maxLine) :
    ∃ rd', scanTo behind pos rd (cr :: lf :: w) = ([], some rd') ∧ rd'.Between ∧
      rd'.buf = rd.buf ∧ rd'.r = rd.endLine.r := by
  obtain ⟨rd₁, rd₂, hcr, hlf, hbuf₁, hbuf₂, hr, hbetween⟩ :=
    rd.read_crlf (behind pos) (behind (pos + 1))
  refine ⟨rd₂, ?_, hbetween, hbuf₂, hr⟩
  rw [scanTo, hcr]
  dsimp only
  rw [hbuf₁, if_neg (Nat.not_le.mpr hlen), scanTo, hlf]
  dsimp only
  rw [hbuf₂, if_neg (Nat.not_le.mpr hlen), scanTo_gap hw hbetween (hbuf₂ ▸ hlen)]
  rfl

theorem scanTo_fits : ∀ {s : List UInt8} {pos : ℕ} {rd rd' : LocReader} {ls : List (List UInt8)},
    rd.buf.length < maxLine → scanTo behind pos rd s = (ls, some rd') →
      rd'.buf.length < maxLine
  | [], _, _, _, _, hlen, h => by
      cases h
      exact hlen
  | c :: s, pos, rd, rd', ls, _, h => by
      rw [scanTo] at h
      dsimp only at h
      split at h
      case isTrue => cases h
      case isFalse hfits =>
          obtain ⟨-, hrest⟩ := Prod.mk.inj h
          exact scanTo_fits (Nat.not_le.mp hfits) (Prod.ext rfl hrest)

/-- Up to the end of a line, whatever comes before -/
theorem scanTo_lineEnd (behind : ℕ → List UInt8) (pos : ℕ) (s : List UInt8) {w : List UInt8}
    {rd : LocReader} (hw : IsGap w)
    (hlen : rd.buf.length < maxLine) :
    (∃ ls, scanTo behind pos rd (s ++ cr :: lf :: w) = (ls, none)) ∨
      ∃ ls rd', scanTo behind pos rd (s ++ cr :: lf :: w) = (ls, some rd') ∧ rd'.Between := by
  rw [scanTo_append]
  cases h : scanTo behind pos rd s with
  | mk ls r =>
      cases r with
      | none => exact .inl ⟨ls, rfl⟩
      | some rd₁ =>
          obtain ⟨rd', hrd', hbetween, -⟩ :=
            scanTo_crlf behind (pos + s.length) hw (scanTo_fits hlen h)
          refine .inr ⟨ls, rd', ?_, hbetween⟩
          dsimp only
          rw [hrd', List.append_nil]

/-- A line is passed when the next one begins, which is then read as if it was the
first one. -/
theorem scanLoop_next {rd : LocReader} {c : UInt8} (rest : List UInt8) (pos : ℕ)
    (hrd : rd.Between) (hc : BeginsLine c) :
    scanLoop behind stop pos rd (c :: rest)
      = (cstr rd.buf :: (scanLoop behind stop pos .init (c :: rest)).1,
        (scanLoop behind stop pos .init (c :: rest)).2) := by
  rw [scanLoop, scanLoop, hrd.read_next hc, LocReader.read_init hc]
  dsimp only
  rw [scanLoop_resize]
  split
  case isTrue => rfl
  case isFalse =>
      have hfits : ¬maxLine ≤ [c].length := by
        change ¬32766 ≤ 1
        decide
      have hresized : ¬maxLine ≤ ((LocReader.inLine [c]).resize rd.bufsize).buf.length := hfits
      have hinit : ¬maxLine ≤ (LocReader.inLine [c]).buf.length := hfits
      rw [if_neg hresized, if_neg hinit]
      rfl

/-- The offset of a line: the front of what is left of the file at `start` ends with
a line end, if there is one. -/
structure LineAt (content : List UInt8) (start a : ℕ) (c : UInt8) : Prop where
  begins : BeginsLine c
  front : ∃ front, content.drop start = front ++ content.drop a ∧ a = start + front.length ∧
    (front = [] ∨ ∃ s w, front = s ++ cr :: lf :: w ∧ IsGap w)
  char : ∃ rest, content.drop a = c :: rest

/-- **A section is cut at a line.** The lines in front of the offset are read as if
the section ended there, and the others as if it began there. -/
theorem readSection_cut {content : List UInt8} {start a : ℕ} {c : UInt8}
    (hline : LineAt content start a c) (hstop : a ≤ stop) :
    readSection behind content start stop =
      match readSection behind content start a with
      | (lines, true) =>
          (lines ++ (readSection behind content a stop).1, (readSection behind content a stop).2)
      | (lines, false) => (lines, false) := by
  obtain ⟨hc, ⟨front, hfront, rfl, hend⟩, rest, hrest⟩ := hline
  have hhere : scanLoop behind (start + front.length) (start + front.length) .init (c :: rest)
      = ([], true) := by
    rw [scanLoop, LocReader.read_init hc]
    exact if_pos (Nat.lt_succ_self _)
  rw [readSection_eq, readSection_eq, readSection_eq, hfront, hrest,
    scanLoop_append _ _ _ _ hstop, scanLoop_append _ _ _ _ le_rfl]
  rcases hend with rfl | ⟨s, w, rfl, hw⟩
  · rw [scanTo]
    dsimp only
    rw [hhere]
    rfl
  · rcases scanTo_lineEnd behind start s hw (show LocReader.init.buf.length < maxLine by decide)
      with ⟨ls, hnone⟩ | ⟨ls, rd, hsome, hbetween⟩
    · rw [hnone]
    · rw [hsome]
      dsimp only
      rw [scanLoop_next _ _ hbetween hc, scanLoop_next _ _ hbetween hc, hhere]
      dsimp only
      rw [List.append_assoc]
      rfl

end

end Nawam
