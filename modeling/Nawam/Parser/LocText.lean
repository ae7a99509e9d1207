import Nawam.Parser.LocFile

/-!
# The text of a message

A translation `t MSG_nnn "..."` is unescaped in two places. The reader of the
section turns `\\` into a backslash and `\n` into a line break, and leaves `\"` as
it is; `get_loc_cmd` then looks for the closing quote, which is the first one without
a backslash in front of it. A text that ends with a backslash has it in front of its
closing quote by then, so the string does not end and the message is not stored. Every
other text is stored as it was (`message_stored_iff`), as long as the line fits into
the 32K of the reader.
-/

namespace Nawam

open Ascii

/-! ## The line of a message -/

/-- How a character of a message is written. -/
def written (c : UInt8) : List UInt8 :=
  if c = backslash then [backslash, backslash]
  else if c = quote then [backslash, quote]
  else if c = lf then [backslash, 110]
  else [c]

/-- What the reader makes of it. -/
def halfRead (c : UInt8) : List UInt8 :=
  if c = backslash then [backslash]
  else if c = quote then [backslash, quote]
  else if c = lf then [cr, lf]
  else [c]

/-- What is in the message table: line breaks as `CR` and `LF` -/
def stored (c : UInt8) : List UInt8 := if c = lf then [cr, lf] else [c]

/-- `MSG_nnn` -/
def msgName (nnn : List UInt8) : List UInt8 := [77, 83, 71, 95] ++ nnn

/-- `t MSG_nnn "`, with a character of the text after another, and the closing quote -/
def textLine (nnn : List UInt8) (char : UInt8 → List UInt8) (text : List UInt8) : List UInt8 :=
  [116, space] ++ msgName nnn ++ [space, quote] ++ text.flatMap char ++ [quote]

/-- `t MSG_nnn "..."` -/
def messageLine (nnn text : List UInt8) : List UInt8 := textLine nnn written text

/-- Printable characters and line breaks -/
def IsMessage (text : List UInt8) : Prop := ∀ c ∈ text, 32 ≤ c ∨ c = lf

instance (text : List UInt8) : Decidable (IsMessage text) := List.decidableBAll _ text

/-! ## What the reader makes of it -/

/-- Within a line, a piece of it is read as something else, or the line is too long. -/
def ReadsAs (behind : ℕ → List UInt8) (piece out : List UInt8) : Prop :=
  ∀ pos buf, buf.length < maxLine → scanTo behind pos (.inLine buf) piece =
    if maxLine ≤ (buf ++ out).length then ([], none) else ([], some (.inLine (buf ++ out)))

namespace ReadsAs

variable {behind : ℕ → List UInt8} {piece piece' out out' : List UInt8}

theorem nil : ReadsAs behind [] [] := by
  intro pos buf hlen
  rw [List.append_nil, if_neg (Nat.not_le.mpr hlen)]
  rfl

theorem append (h : ReadsAs behind piece out) (h' : ReadsAs behind piece' out') :
    ReadsAs behind (piece ++ piece') (out ++ out') := by
  intro pos buf hlen
  rw [scanTo_append, h pos buf hlen, ← List.append_assoc]
  by_cases hlong : maxLine ≤ (buf ++ out).length
  · have hlong' : maxLine ≤ (buf ++ out ++ out').length := by
      rw [List.length_append]
      exact hlong.trans (Nat.le_add_right _ _)
    rw [if_pos hlong, if_pos hlong']
  · rw [if_neg hlong]
    dsimp only
    rw [h' _ _ (Nat.not_le.mp hlong)]
    split
    · rfl
    · rfl

theorem plain {c : UInt8} (hcr : c ≠ cr) (hlf : c ≠ lf) (hbackslash : c ≠ backslash) :
    ReadsAs behind [c] [c] := by
  intro pos buf _
  rw [scanTo, LocReader.read_plain hcr hlf hbackslash]
  rfl

theorem plains : ∀ {s : List UInt8}, (∀ c ∈ s, c ≠ cr ∧ c ≠ lf ∧ c ≠ backslash) →
    ReadsAs behind s s
  | [], _ => nil
  | c :: _, h =>
      have hc := h c List.mem_cons_self
      (plain hc.1 hc.2.1 hc.2.2).append (plains fun d hd => h d (List.mem_cons_of_mem c hd))

theorem escape {c : UInt8} (hcr : c ≠ cr) (hlf : c ≠ lf) (hblank : isBlank c = false) :
    ReadsAs behind [backslash, c] (LocReader.escaped c) := by
  intro pos buf hlen
  have hfirst : (LocReader.inLine buf).read (behind pos) backslash
      = ({ LocReader.inLine buf with escapeSequence := true }, none) := rfl
  have hsecond (behind : List UInt8) :
      ({ LocReader.inLine buf with escapeSequence := true } : LocReader).read behind c
        = (LocReader.inLine (buf ++ LocReader.escaped c), none) := by
    rw [LocReader.read, if_neg (not_or.mpr ⟨hcr, hlf⟩), if_neg (by rw [hblank]; decide),
      if_pos rfl]
    rfl
  rw [scanTo, hfirst]
  dsimp only
  rw [if_neg (show ¬maxLine ≤ (LocReader.inLine buf).buf.length from Nat.not_le.mpr hlen), scanTo,
    hsecond]
  rfl

theorem flatMap {f g : UInt8 → List UInt8} : ∀ {text : List UInt8},
    (∀ c ∈ text, ReadsAs behind (f c) (g c)) → ReadsAs behind (text.flatMap f) (text.flatMap g)
  | [], _ => nil
  | c :: text, h => by
      rw [List.flatMap_cons, List.flatMap_cons]
      exact (h c List.mem_cons_self).append (flatMap fun d hd => h d (List.mem_cons_of_mem c hd))

theorem written {c : UInt8} (hc : 32 ≤ c ∨ c = lf) : ReadsAs behind (written c) (halfRead c) := by
  unfold Nawam.written halfRead
  split
  · exact escape (by decide) (by decide) (by decide)
  split
  · exact escape (by decide) (by decide) (by decide)
  split
  · exact escape (by decide) (by decide) (by decide)
  · rename_i hbackslash hquote hlf
    refine plain ?_ hlf hbackslash
    rintro rfl
    exact hc.elim (by decide) (by decide)

end ReadsAs

section

variable {behind : ℕ → List UInt8} {nnn text : List UInt8} {n : ℕ}

theorem digit_of_numeral (hn : Numeral 10 nnn n) {c : UInt8} (hc : c ∈ nnn) :
    48 ≤ c ∧ c ≤ 57 := by
  have hdigit := isDigitOf_of_numeralFrom hn.2 c hc
  unfold isDigitOf at hdigit
  cases hd : digitValue c with
  | none =>
      rw [hd] at hdigit
      cases hdigit
  | some d =>
      rw [hd] at hdigit
      have hten := digitValue_lt_ten_iff.mp ⟨d, hd, of_decide_eq_true hdigit⟩
      simpa [isDigit] using hten

/-- What the scanners look for is not in a number. -/
theorem digit_facts {c : UInt8} (h : 48 ≤ c ∧ c ≤ 57) :
    isBlank c = false ∧ c ≠ nul ∧ c ≠ cr ∧ c ≠ lf ∧ c ≠ backslash := by
  have hne (d : UInt8) (hd : ¬(48 ≤ d ∧ d ≤ 57)) : c ≠ d := by
    rintro rfl
    exact hd h
  refine ⟨?_, hne _ (by decide), hne _ (by decide), hne _ (by decide), hne _ (by decide)⟩
  simp [isBlank, hne 32 (by decide), hne 9 (by decide)]

theorem messageLine_readsAs (hn : Numeral 10 nnn n) (htext : IsMessage text) :
    ReadsAs behind (messageLine nnn text) (textLine nnn halfRead text) := by
  have hfront : ReadsAs behind ([116, space] ++ msgName nnn ++ [space, quote])
      ([116, space] ++ msgName nnn ++ [space, quote]) := by
    refine .plains fun c hc => ?_
    simp only [msgName, List.mem_append] at hc
    rcases hc with (hc | hc | hc) | hc
    · simp only [List.mem_cons, List.not_mem_nil, or_false] at hc
      rcases hc with rfl | rfl
      · decide
      · decide
    · simp only [List.mem_cons, List.not_mem_nil, or_false] at hc
      rcases hc with rfl | rfl | rfl | rfl
      · decide
      · decide
      · decide
      · decide
    · exact (digit_facts (digit_of_numeral hn hc)).2.2
    · simp only [List.mem_cons, List.not_mem_nil, or_false] at hc
      rcases hc with rfl | rfl
      · decide
      · decide
  exact (hfront.append (.flatMap fun c hc => .written (htext c hc))).append
    (.plain (by decide) (by decide) (by decide))

/-- The string does not end before the line. -/
theorem cstr_textLine (hn : Numeral 10 nnn n) (htext : IsMessage text) :
    cstr (textLine nnn halfRead text) = textLine nnn halfRead text := by
  have hchar : ∀ c, (32 ≤ c ∨ c = lf) → nul ∉ halfRead c := by
    intro c hc
    unfold halfRead
    split
    · decide
    split
    · decide
    split
    · decide
    · rw [List.mem_singleton]
      rintro rfl
      exact hc.elim (by decide) (by decide)
  refine List.takeWhile_eq_self_iff.mpr fun c hc => decide_eq_true ?_
  rintro rfl
  simp only [textLine, msgName, List.mem_append, List.mem_flatMap] at hc
  rcases hc with (((hc | hc | hc) | hc) | ⟨c, hc, hnul⟩) | hc
  · exact absurd hc (by decide)
  · exact absurd hc (by decide)
  · exact (digit_facts (digit_of_numeral hn hc)).2.1 rfl
  · exact absurd hc (by decide)
  · exact hchar c (htext c hc) hnul
  · exact absurd hc (by decide)

/-! ## What the parser makes of it -/

theorem quotedLoop_cons {out line : List UInt8} {c : UInt8} (hc : c ≠ quote) :
    quotedLoop out (c :: line) = quotedLoop (c :: out) line := by
  rw [quotedLoop, if_neg hc]

/-- The loop is behind the text, which has been unescaped. -/
theorem quotedLoop_text (line : List UInt8) : ∀ (text out : List UInt8),
    quotedLoop out (text.flatMap halfRead ++ line)
      = quotedLoop ((text.flatMap stored).reverse ++ out) line
  | [], _ => rfl
  | c :: text, out => by
      have hchar (rest : List UInt8) :
          quotedLoop out (halfRead c ++ rest) = quotedLoop ((stored c).reverse ++ out) rest := by
        unfold halfRead stored
        by_cases hbackslash : c = backslash
        · subst hbackslash
          exact quotedLoop_cons (by decide)
        by_cases hquote : c = quote
        · -- the backslash is taken out again
          subst hquote
          change quotedLoop out (backslash :: quote :: rest) = _
          have hhead : (backslash :: out).head? = some backslash := rfl
          rw [quotedLoop_cons (by decide), quotedLoop, if_pos rfl, if_pos hhead]
          rfl
        by_cases hlf : c = lf
        · subst hlf
          change quotedLoop out (cr :: lf :: rest) = _
          rw [quotedLoop_cons (by decide), quotedLoop_cons (by decide)]
          rfl
        rw [if_neg hbackslash, if_neg hquote, if_neg hlf]
        exact quotedLoop_cons hquote
      rw [List.flatMap_cons, List.flatMap_cons, List.append_assoc, hchar,
        quotedLoop_text line text, List.reverse_append, List.append_assoc]

theorem getLast?_stored : ∀ text : List UInt8,
    (text.flatMap stored).getLast? = some backslash ↔ text.getLast? = some backslash := by
  intro text
  induction text using List.reverseRecOn with
  | nil => rfl
  | append_singleton text c _ =>
      rw [List.flatMap_append, List.flatMap_singleton, List.getLast?_concat, stored]
      split
      · rename_i hlf
        subst hlf
        rw [List.getLast?_append]
        simp
      · rw [List.getLast?_concat]

/-- A quoted text is read back, unless it ends with a backslash. -/
theorem quotedLoop_message (text : List UInt8) :
    quotedLoop [] (text.flatMap halfRead ++ [quote]) =
      if text.getLast? = some backslash then none else some (text.flatMap stored, []) := by
  rw [quotedLoop_text, List.append_nil, quotedLoop, if_pos rfl, List.head?_reverse,
    List.reverse_reverse]
  simp only [getLast?_stored]
  split
  · rfl
  · rfl

def messageCmd (nnn text : List UInt8) : LocCmd :=
  ⟨.text, -1, [], [], [msgName nnn, text.flatMap stored]⟩

theorem not_blank_of_mem_msgName (hn : Numeral 10 nnn n) {c : UInt8} (hc : c ∈ msgName nnn) :
    isBlank c = false := by
  rcases List.mem_append.mp hc with hprefix | hc
  · simp only [List.mem_cons, List.not_mem_nil, or_false] at hprefix
    rcases hprefix with rfl | rfl | rfl | rfl
    · decide
    · decide
    · decide
    · decide
  · exact (digit_facts (digit_of_numeral hn hc)).1

theorem locArg_msgName (hn : Numeral 10 nnn n) (cmd : LocCmd) (rest : List UInt8) :
    locArg .controlId cmd (msgName nnn ++ space :: rest)
      = some ({ cmd with txt := cmd.txt ++ [msgName nnn] }, rest) := by
  have hword : (msgName nnn ++ space :: rest).takeWhile (!isBlank ·) = msgName nnn := by
    rw [List.takeWhile_append_of_pos fun c hc => by rw [not_blank_of_mem_msgName hn hc]; rfl]
    simp [isBlank]
  rw [locArg, hword, List.drop_left]
  rfl

theorem locArg_quoted (cmd : LocCmd) (text : List UInt8) :
    locArg .quoted cmd (quote :: (text.flatMap halfRead ++ [quote])) =
      if text.getLast? = some backslash then none
      else some ({ cmd with txt := cmd.txt ++ [text.flatMap stored] }, []) := by
  rw [locArg, if_neg (by simp), List.tail_cons, quotedLoop_message]
  split
  · rfl
  · rfl

theorem getLocDataLine_message (hn : Numeral 10 nnn n) (text : List UInt8) :
    getLocDataLine (textLine nnn halfRead text) =
      if text.getLast? = some backslash then none else some (messageCmd nnn text) := by
  have hline : textLine nnn halfRead text = 116 :: space ::
      (msgName nnn ++ space :: quote :: (text.flatMap halfRead ++ [quote])) := by
    simp [textLine]
  have hargs : getLocCmd 116 (space ::
      (msgName nnn ++ space :: quote :: (text.flatMap halfRead ++ [quote]))) =
        if text.getLast? = some backslash then none else some (messageCmd nnn text) := by
    have hfind : parseCmd.find? (·.c = 116) = some ⟨116, .text, [.controlId, .quoted]⟩ := rfl
    have hquoted (line : List UInt8) : (quote :: line).dropWhile isBlank = quote :: line := rfl
    have hname (line : List UInt8) : (space :: (msgName nnn ++ line)).dropWhile isBlank
        = msgName nnn ++ line := rfl
    have hne (line : List UInt8) : msgName nnn ++ line ≠ [] := nofun
    rw [getLocCmd, hfind]
    change locArgs _ _ _ = _
    rw [locArgs, hname, if_neg (hne _), locArg_msgName hn]
    change locArgs _ _ _ = _
    rw [locArgs, hquoted, if_neg (List.cons_ne_nil _ _), locArg_quoted]
    split
    · rfl
    · rfl
  have hskip (line : List UInt8) :
      (116 :: space :: line).dropWhile isBlank = 116 :: space :: line := rfl
  rw [hline, getLocDataLine, hskip]
  dsimp only
  rw [if_pos (by decide), hargs]
  split
  · rfl
  · rfl

/-! ## What is stored -/

theorem atoi_eq_min (hn : Numeral 10 nnn n) : atoi nnn = min (n : ℤ) (2 ^ 31 - 1) := by
  obtain ⟨hne, hval⟩ := hn
  cases nnn with
  | nil => exact absurd rfl hne
  | cons c s =>
      rw [atoi, signOf_dropWhile_of_digit (isDigitOf_head_of_numeral hval)]
      simp only [leadingNumeral_eq hval]
      rfl

theorem dispatch_message (F : LocFile) (hn : Numeral 10 nnn n) (text : List UInt8)
    (load : ℕ → LocState → Option (Bool × LocState)) (st : LocState) :
    F.dispatchLocCmd load (messageCmd nnn text) st =
      some (if 0 < n ∧ n < 400 then st.setMsg n (text.flatMap stored) else st) := by
  have hatoi := atoi_eq_min hn
  have hname : (messageCmd nnn text).txt.headD [] = msgName nnn := rfl
  have hdigits : (msgName nnn).drop 4 = nnn := rfl
  rw [LocFile.dispatchLocCmd, hname, if_pos ⟨.inr rfl, rfl⟩, hdigits]
  by_cases hzero : n = 0
  · rw [if_pos (.inr (by rw [hatoi, hzero]; rfl)), if_neg fun h => h.1.ne' hzero]
  · rw [if_neg (by
      rw [not_or]
      exact ⟨fun h => h rfl, by omega⟩), LocState.addMessageCommand]
    by_cases hlt : n < 400
    · have hvalue : atoi nnn = n := by omega
      rw [hvalue, if_neg (by omega), if_pos ⟨Nat.pos_of_ne_zero hzero, hlt⟩,
        add_sub_cancel_left]
      rfl
    · rw [if_pos (.inr (by omega)), if_neg fun h => hlt h.2]

end

/-! ## A message in a section -/

def LocFile.commands (F : LocFile) (k start stop : ℕ) : List LocCmd :=
  (readSection (F.behind k) (F.content.getD []) start stop).1.filterMap getLocDataLine

theorem filterMap_cons_toList {α β : Type} (f : α → Option β) (a : α) (l : List α) :
    (a :: l).filterMap f = (f a).toList ++ l.filterMap f := by
  rw [List.filterMap_cons]
  cases f a with
  | none => rfl
  | some b => rfl

section

variable {F : LocFile} (load : ℕ → LocState → Option (Bool × LocState))

theorem foldlM_passLine : ∀ (lines : List (List UInt8)) (st : LocState),
    lines.foldlM (F.passLine load) st
      = (lines.filterMap getLocDataLine).foldlM (fun st cmd => F.dispatchLocCmd load cmd st) st
  | [], _ => rfl
  | line :: lines, st => by
      rw [List.foldlM_cons, filterMap_cons_toList, LocFile.passLine]
      cases getLocDataLine line with
      | none => exact foldlM_passLine lines st
      | some cmd =>
          rw [Option.toList, List.singleton_append, List.foldlM_cons]
          exact bind_congr fun st' => foldlM_passLine lines st'

/-- Loading a locale is dispatching its commands. -/
theorem readLocale_eq (k : ℕ) (l : Locale) (st : LocState) :
    F.readLocale load k l st
      = ((F.commands k l.start l.stop).foldlM
          (fun st cmd => F.dispatchLocCmd load cmd st) st).map
          fun st => ((F.lines k l).2, st) := by
  rw [LocFile.readLocale, foldlM_passLine]
  exact Option.map_eq_bind.symm

end

/-- The line of a message is at the offset `a` of a section, and the next one, if there
is one, at the offset `b`. -/
structure MessageAt (content : List UInt8) (start stop a b : ℕ) (nnn text : List UInt8) :
    Prop where
  line : LineAt content start a 116
  message : ∃ gap, IsGap gap ∧ b = a + (messageLine nnn text ++ cr :: lf :: gap).length ∧
    content.drop a = messageLine nnn text ++ cr :: lf :: gap ++ content.drop b
  next : ∀ c ∈ (content.drop b).head?, BeginsLine c
  within : b ≤ stop

section

variable {content nnn text : List UInt8} {n start stop a b : ℕ} {behind : ℕ → List UInt8}

/-- The line of a message is passed as it has been read. -/
theorem readSection_message (hn : Numeral 10 nnn n) (htext : IsMessage text)
    (hat : MessageAt content start stop a b nnn text) :
    (readSection behind content a stop).1.filterMap getLocDataLine =
      if maxLine ≤ (textLine nnn halfRead text).length then []
      else (getLocDataLine (textLine nnn halfRead text)).toList ++
        (readSection behind content b stop).1.filterMap getLocDataLine := by
  obtain ⟨gap, hgap, hb, hdrop⟩ := hat.message
  have hline : scanTo behind a .init (messageLine nnn text) = _ :=
    messageLine_readsAs hn htext a [] (by decide)
  rw [List.nil_append] at hline
  rw [readSection_eq, hdrop, scanLoop_append _ _ _ _ (hb ▸ hat.within), scanTo_append, hline]
  by_cases hlong : maxLine ≤ (textLine nnn halfRead text).length
  · rw [if_pos hlong, if_pos hlong]
    rfl
  · rw [if_neg hlong, if_neg hlong]
    have hfits : (LocReader.inLine (textLine nnn halfRead text)).buf.length < maxLine :=
      Nat.not_le.mp hlong
    obtain ⟨rd, hrd, hbetween, hbuf, -⟩ :=
      scanTo_crlf behind (a + (messageLine nnn text).length) hgap hfits
    have hpassed : cstr rd.buf = textLine nnn halfRead text :=
      (congrArg cstr hbuf).trans (cstr_textLine hn htext)
    dsimp only
    rw [hrd, List.append_nil, ← hb]
    dsimp only
    cases hrest : content.drop b with
    | nil =>
        rw [readSection_eq, hrest, scanLoop, scanLoop, hpassed, List.nil_append,
          filterMap_cons_toList]
        rfl
    | cons c rest =>
        have hc : BeginsLine c := hat.next c (by rw [hrest]; rfl)
        rw [scanLoop_next rest b hbetween hc, hpassed, readSection_eq, hrest,
          List.nil_append, filterMap_cons_toList]

end

/-- The lines in front of a line, and then the others -/
theorem commands_cut {F : LocFile} {k start stop a : ℕ} {c : UInt8}
    (hline : LineAt (F.content.getD []) start a c) (hstop : a ≤ stop)
    (hread : (readSection (F.behind k) (F.content.getD []) start a).2 = true) :
    F.commands k start stop = F.commands k start a ++ F.commands k a stop := by
  unfold LocFile.commands
  rw [readSection_cut hline hstop]
  cases hbefore : readSection (F.behind k) (F.content.getD []) start a with
  | mk lines ret =>
      rw [hbefore] at hread
      cases hread
      exact List.filterMap_append

/-- **A text is stored as it was written** if and only if its number is one of the
table, it does not end with a backslash, and its line fits into the buffer: loading the
section is dispatching its commands, and between those in front of the line and those
behind it there is one that stores the text. -/
theorem message_stored_iff {F : LocFile} {k start stop a b n : ℕ} {nnn text : List UInt8}
    (hn : Numeral 10 nnn n) (htext : IsMessage text)
    (hat : MessageAt (F.content.getD []) start stop a b nnn text)
    (hread : (readSection (F.behind k) (F.content.getD []) start a).2 = true) :
    (∀ load (l : Locale) st, l.start = start → l.stop = stop →
      F.readLocale load k l st
        = ((F.commands k start stop).foldlM
            (fun st cmd => F.dispatchLocCmd load cmd st) st).map
            fun st => ((F.lines k l).2, st)) ∧
    ((∃ cmd, F.commands k start stop = F.commands k start a ++ cmd :: F.commands k b stop ∧
        ∀ load st, F.dispatchLocCmd load cmd st = some (st.setMsg n (text.flatMap stored))) ↔
      (0 < n ∧ n < 400) ∧ text.getLast? ≠ some backslash ∧
        (textLine nnn halfRead text).length < maxLine) := by
  refine ⟨?_, ?_⟩
  · rintro load l st rfl rfl
    exact readLocale_eq load k l st
  have hab : a ≤ stop := by
    obtain ⟨gap, -, hb, -⟩ := hat.message
    exact (hb ▸ Nat.le_add_right a _).trans hat.within
  have hmessage : F.commands k a stop = _ :=
    readSection_message hn htext hat
  rw [commands_cut hat.line hab hread, hmessage, getLocDataLine_message hn]
  constructor
  · rintro ⟨cmd, hcommands, hstores⟩
    have hbehind := List.append_cancel_left hcommands
    by_cases hlong : maxLine ≤ (textLine nnn halfRead text).length
    · rw [if_pos hlong] at hbehind
      cases hbehind
    rw [if_neg hlong] at hbehind
    by_cases hlast : text.getLast? = some backslash
    · -- the line gives no command at all
      rw [if_pos hlast] at hbehind
      exact absurd (congrArg List.length hbehind) (Nat.succ_ne_self _).symm
    rw [if_neg hlast] at hbehind
    obtain rfl : messageCmd nnn text = cmd := (List.cons.inj hbehind).1
    refine ⟨?_, hlast, Nat.not_le.mp hlong⟩
    by_contra hrange
    let st : LocState := ⟨true, false, some .current, fun _ => none, fun _ => none⟩
    have hsame := hstores (fun _ _ => none) st
    rw [dispatch_message F hn, if_neg hrange] at hsame
    have hentry := congrArg (·.current n) (Option.some.inj hsame)
    have hnone : none = some (text.flatMap stored) := hentry.trans (Function.update_self ..)
    cases hnone
  · rintro ⟨hrange, hlast, hfits⟩
    rw [if_neg (Nat.not_le.mpr hfits), if_neg hlast]
    refine ⟨messageCmd nnn text, rfl, fun load st => ?_⟩
    rw [dispatch_message F hn, if_pos hrange]

/-- A section with one message: a backslash and a quote -/
def quoteFile : LocFile :=
  ⟨some (messageLine (text "001") [backslash, quote] ++ [cr, lf]), [], fun _ _ => []⟩

theorem message_stored_quote :
    ∃ cmd, quoteFile.commands 0 0 18 = quoteFile.commands 0 0 0 ++ cmd :: quoteFile.commands 0 18 18 ∧
      ∀ load st, quoteFile.dispatchLocCmd load cmd st
        = some (st.setMsg 1 ([backslash, quote].flatMap stored)) := by
  have hat : MessageAt (quoteFile.content.getD []) 0 18 0 18 (text "001") [backslash, quote] := by
    refine ⟨⟨⟨by decide, by decide, by decide, by decide, by decide⟩, ?_, ?_⟩, ?_, ?_, le_rfl⟩
    · exact ⟨[], rfl, rfl, .inl rfl⟩
    · exact ⟨_, rfl⟩
    · exact ⟨[], nofun, by decide, by decide⟩
    · have hend : ((quoteFile.content.getD []).drop 18).head? = none := by decide
      rw [hend]
      exact nofun
  exact (message_stored_iff (by decide) (by decide) hat (by decide)).2.mpr (by decide)

/-- A text that ends with a backslash -/
def backslashText : List UInt8 :=
  LocFile.filler ++ text "l \"a\" \"A\" 1\r\nv 1.0\r\nl \"b\" \"B\" 2\r\nv 1.0\r\n" ++
    messageLine (text "001") (text "C:\\") ++ [cr, lf]

set_option maxRecDepth 100000 in
/-- It is not stored, and the load is a success. -/
theorem message_with_backslash_lost :
    let F : LocFile := ⟨some backslashText, getSupportedLocales backslashText, fun _ _ => []⟩
    (F.getLocDataFile 2 true 1 ⟨false, false, none, fun _ => none, fun _ => none⟩).map
      (fun r => (r.1, r.2.current 1)) = some (true, none) := by
  decide

end Nawam
