import Nawam.Parser.LocLines
import Nawam.Parser.LocText

/-!
# The two passes over a localization file

`get_supported_locales` reads a localization file line by line and notes the offsets
of its sections; `get_loc_data_file` reads one of them again character by character.
For a file made of sections (`Localization`) the offsets of the first pass are where
its sections are (`readLines_sections`), and between them the second pass comes to the
lines of one section and no others (`lines_of_section`).

What a call passes follows from that. A call for a base passes the lines of its
section. One from outside does too, but for the default locale: its lines are passed
in the first call of all, whatever the locale, and never again.
-/

namespace Nawam

open Ascii

/-! ## What the first pass reads -/

/-- A line in the buffer of `fgets`, which keeps the line end if there is room for it. -/
def fgetsLine (line : List UInt8) : List UInt8 := (line ++ [cr, lf]).take 1023

/-- What is left of the line end -/
def fgetsRest (line : List UInt8) : List UInt8 := (line ++ [cr, lf]).drop 1023

/-- The command of a line, if its letter is one that `get_supported_locales` looks for. -/
def supportedCmd (line : List UInt8) : Option LocCmd :=
  match (fgetsLine line).dropWhile isBlank with
  | [] => none
  | c :: rest => if c = 108 ∨ c = 118 ∨ c = 97 then getLocCmd c rest else none

/-- The line is no `l` line. -/
def NoHead (line : List UInt8) : Prop := ∀ cmd ∈ supportedCmd line, cmd.command ≠ .locale

instance (line : List UInt8) : Decidable (NoHead line) :=
  inferInstanceAs (Decidable (∀ cmd ∈ supportedCmd line, _))

/-- The line gives a version, of two numbers. -/
def IsVersionLine (line : List UInt8) : Prop :=
  ∃ cmd, supportedCmd line = some cmd ∧ cmd.command = .version ∧ cmd.unum.length = 2

section

variable {line : List UInt8}

theorem fgetsLine_append_rest (line : List UInt8) :
    fgetsLine line ++ fgetsRest line = line ++ [cr, lf] :=
  List.take_append_drop 1023 _

theorem append_crlf (line : List UInt8) : line ++ [cr, lf] = (line ++ [cr]) ++ [lf] :=
  (List.append_assoc line [cr] [lf]).symm

theorem fgetsRest_eq (h : line.length ≤ 1022) : fgetsRest line = [] ∨ fgetsRest line = [lf] := by
  rcases h.eq_or_lt with hfull | hlt
  · refine .inr ?_
    rw [fgetsRest, append_crlf, List.drop_left' (by rw [List.length_append, hfull]; rfl)]
  · refine .inl (List.drop_eq_nil_of_le ?_)
    rw [List.length_append]
    exact Nat.succ_le_of_lt (Nat.add_lt_add_right hlt 1)

theorem chunks_lf : chunks lf 1023 [lf] = [[lf]] := rfl

theorem chunks_crlf (h : IsLocLine line) :
    chunks lf 1023 (line ++ [cr, lf]) = fgetsLine line :: chunks lf 1023 (fgetsRest line) := by
  have hmem : lf ∉ line ++ [cr] := by
    rw [List.mem_append, not_or]
    exact ⟨fun hlf => (h.oneLine lf hlf).2 rfl, by decide⟩
  have hlen : (line ++ [cr]).length = line.length + 1 := List.length_append
  rw [fgetsLine, fgetsRest, append_crlf]
  rcases h.length.eq_or_lt with hfull | hlt
  · have hsize : (line ++ [cr]).length = 1023 := by rw [hlen, hfull]
    rw [chunks_full hmem hsize (by decide), List.take_left' hsize, List.drop_left' hsize,
      chunks_lf]
  · have hsize : ((line ++ [cr]) ++ [lf]).length ≤ 1023 := by
      rw [List.length_append, hlen]
      exact Nat.succ_le_of_lt (Nat.add_lt_add_right hlt 1)
    rw [chunks_line hmem (by rw [hlen]; omega), List.take_of_length_le hsize,
      List.drop_eq_nil_of_le hsize]
    rfl

theorem noNul_fgetsLine (h : nul ∉ line) : nul ∉ fgetsLine line := by
  intro hmem
  rcases List.mem_append.mp (List.mem_of_mem_take hmem) with hline | hend
  · exact h hline
  · exact absurd hend (by decide)

end

namespace LocaleScan

variable {line : List UInt8} (scan : LocaleScan) (pos : ℕ)

/-- What the first pass does about the command of a line that ends at `pos'`. -/
def runCmd (scan : LocaleScan) (pos pos' : ℕ) (cmd : LocCmd) : LocaleScan :=
  match cmd.command with
  | .locale => ⟨scan.finish pos, some ⟨cmd, pos', 0, 0⟩, false, scan.baseMajor, scan.baseMinor⟩
  | .attributes => scan.addAttributes (cmd.txt.headD [])
  | .version => scan.setVersion cmd.unum
  | _ => scan

theorem readLine_eq (h : IsLocLine line) : scan.readLine pos (fgetsLine line) =
    ((supportedCmd line).map (scan.runCmd pos (pos + (fgetsLine line).length))).getD scan := by
  rw [readLine, cstr_of_noNul (noNul_fgetsLine h.noNul), supportedCmd]
  cases (fgetsLine line).dropWhile isBlank with
  | nil => rfl
  | cons c rest =>
      dsimp only
      split
      case isTrue =>
          cases getLocCmd c rest with
          | none => rfl
          | some cmd => rfl
      case isFalse => rfl

/-- A line and its end, and then the others -/
theorem readLines_line (h : IsLocLine line) (rest : List UInt8) :
    scan.readLines pos (chunks lf 1023 (line ++ [cr, lf] ++ rest)) =
      (scan.readLine pos (fgetsLine line)).readLines (pos + (line ++ [cr, lf]).length)
        (chunks lf 1023 rest) := by
  have hsplit : line ++ [cr, lf] ++ rest = (line ++ [cr]) ++ lf :: rest := by
    simp only [List.append_assoc, List.cons_append, List.nil_append]
  have hchunks : chunks lf 1023 (line ++ [cr, lf] ++ rest) =
      fgetsLine line :: chunks lf 1023 (fgetsRest line) ++ chunks lf 1023 rest := by
    rw [hsplit, chunks_append, List.append_assoc, List.singleton_append, chunks_crlf h]
  rw [hchunks, ← fgetsLine_append_rest, List.length_append, List.cons_append, readLines,
    ← Nat.add_assoc pos]
  rcases fgetsRest_eq h.length with hrest | hrest
  · rw [hrest]
    rfl
  · rw [hrest, chunks_lf, List.singleton_append, readLines]
    rfl

/-! ## Within a section -/

/-- Nothing has changed about the section that the scan is in, but for what is said
about it. -/
structure SameSection (scan scan' : LocaleScan) : Prop where
  locales : scan'.locales = scan.locales
  last : scan'.last.map (fun l => (l.cmd, l.start)) = scan.last.map fun l => (l.cmd, l.start)
  version : scan.version = true → scan'.version = true

theorem SameSection.refl : SameSection scan scan := ⟨rfl, rfl, id⟩

variable {scan} in
theorem SameSection.trans {scan' scan'' : LocaleScan} (h : SameSection scan scan')
    (h' : SameSection scan' scan'') : SameSection scan scan'' :=
  ⟨h'.locales.trans h.locales, h'.last.trans h.last, fun hv => h'.version (h.version hv)⟩

theorem addAttributes_same (attrs : List UInt8) :
    SameSection scan (scan.addAttributes attrs) := by
  refine ⟨rfl, ?_, id⟩
  rw [addAttributes]
  cases scan.last with
  | none => rfl
  | some l =>
      dsimp only [Option.map_some]
      split
      · rfl
      · rfl

theorem setVersion_same (unum : List ℕ) : SameSection scan (scan.setVersion unum) := by
  unfold setVersion
  split
  case h_1 hversion hlast =>
      split
      · exact ⟨rfl, rfl, fun _ => rfl⟩
      · split
        · exact ⟨rfl, by rw [hlast]; rfl, fun _ => rfl⟩
        · exact ⟨rfl, rfl, fun _ => rfl⟩
  case h_2 => exact .refl scan

theorem setVersion_version {unum : List ℕ} (hlen : unum.length = 2) (hlast : scan.last ≠ none) :
    (scan.setVersion unum).version = true := by
  obtain ⟨major, minor, rfl⟩ := List.length_eq_two.mp hlen
  obtain ⟨l, hl⟩ := Option.ne_none_iff_exists'.mp hlast
  cases hversion : scan.version with
  | true => exact (scan.setVersion_same [major, minor]).version hversion
  | false =>
      unfold setVersion
      rw [hversion, hl]
      dsimp only
      split
      · rfl
      · split
        · rfl
        · rfl

theorem readLine_same (h : IsLocLine line) (hhead : NoHead line) :
    SameSection scan (scan.readLine pos (fgetsLine line)) := by
  rw [readLine_eq scan pos h]
  cases hcmd : supportedCmd line with
  | none => exact .refl scan
  | some cmd =>
      have hne := hhead cmd hcmd
      rw [Option.map_some, Option.getD_some, runCmd]
      cases hc : cmd.command with
      | locale => exact absurd hc hne
      | attributes => exact scan.addAttributes_same _
      | version => exact scan.setVersion_same _
      | group => exact .refl scan
      | text => exact .refl scan
      | base => exact .refl scan
      | font => exact .refl scan

theorem readLine_version (h : IsLocLine line) (hversion : IsVersionLine line)
    (hlast : scan.last ≠ none) : (scan.readLine pos (fgetsLine line)).version = true := by
  obtain ⟨cmd, hcmd, hc, hlen⟩ := hversion
  rw [readLine_eq scan pos h, hcmd, Option.map_some, Option.getD_some, runCmd, hc]
  exact scan.setVersion_version hlen hlast

variable {scan} in
theorem SameSection.last_ne_none {scan' : LocaleScan} (h : SameSection scan scan')
    (hlast : scan.last ≠ none) : scan'.last ≠ none := by
  intro hnone
  have hmap := h.last
  rw [hnone] at hmap
  exact hlast (Option.map_eq_none_iff.mp hmap.symm)

/-- **Lines that are no `l` lines** leave the scan in its section. Behind a version line
the section counts. -/
theorem readLines_noHead (rest : List UInt8) : ∀ (lines : List (List UInt8)) (scan : LocaleScan)
    (pos : ℕ), (∀ line ∈ lines, IsLocLine line ∧ NoHead line) →
    ∃ scan', scan.readLines pos (chunks lf 1023 (lines.flatMap (· ++ [cr, lf]) ++ rest)) =
        scan'.readLines (pos + (lines.flatMap (· ++ [cr, lf])).length) (chunks lf 1023 rest) ∧
      SameSection scan scan' ∧
      (scan.last ≠ none → (∃ line ∈ lines, IsVersionLine line) → scan'.version = true) := by
  intro lines
  induction lines with
  | nil => exact fun scan pos _ => ⟨scan, rfl, .refl scan, fun _ ⟨_, hmem, _⟩ => nomatch hmem⟩
  | cons line lines ih =>
      intro scan pos h
      obtain ⟨⟨hline, hhead⟩, hlines⟩ := List.forall_mem_cons.mp h
      have hsame := scan.readLine_same pos hline hhead
      obtain ⟨scan', hread, hsame', hversion⟩ :=
        ih (scan.readLine pos (fgetsLine line)) (pos + (line ++ [cr, lf]).length) hlines
      refine ⟨scan', ?_, hsame.trans hsame', fun hlast hexists => ?_⟩
      · rw [List.flatMap_cons, List.append_assoc, readLines_line scan pos hline, hread,
          Nat.add_assoc pos, ← List.length_append]
      · obtain ⟨v, hmem, hv⟩ := hexists
        rcases List.mem_cons.mp hmem with rfl | hmem
        · exact hsame'.version (scan.readLine_version pos hline hv hlast)
        · exact hversion (hsame.last_ne_none hlast) ⟨v, hmem, hv⟩

end LocaleScan

/-! ## Localization files -/

/-- A locale in the file: its `l` line, which begins in the first column, and the lines
behind it. -/
structure LocSection where
  head : List UInt8
  body : List LocLine
  cmd : LocCmd
  isLine : IsLocLine head
  letter : head.head? = some 108
  supported : supportedCmd head = some cmd
  locale : cmd.command = .locale
  isBlock : IsBlock body
  noHead : ∀ l ∈ body, NoHead l.bytes
  version : ∃ l ∈ body, IsVersionLine l.bytes

def crlfLines (lines : List (List UInt8)) : List UInt8 := lines.flatMap (· ++ [cr, lf])

def LocSection.bytes (s : LocSection) : List UInt8 := s.head ++ [cr, lf] ++ LocLine.text s.body

theorem LocSection.body_ne_nil (s : LocSection) : s.body ≠ [] := by
  obtain ⟨l, hl, -⟩ := s.version
  exact List.ne_nil_of_mem hl

def locContent (preamble : List (List UInt8)) (sections : List LocSection) : List UInt8 :=
  crlfLines preamble ++ sections.flatMap LocSection.bytes

/-- A localization file. It is not too small, and it does not begin with a byte order
mark. -/
structure Localization where
  /-- the lines in front of the first locale -/
  preamble : List (List UInt8)
  sections : List LocSection
  isPreamble : ∀ line ∈ preamble, IsLocLine line ∧ NoHead line
  size : 1024 ≤ (locContent preamble sections).length
  noBom : (locContent preamble sections).headD 0 ≤ 0x80

namespace Localization

def content (T : Localization) : List UInt8 := locContent T.preamble T.sections

/-- The file behind `get_supported_locales` -/
def file (T : Localization) (behind : ℕ → ℕ → List UInt8) : LocFile :=
  ⟨some T.content, getSupportedLocales T.content, behind⟩

end Localization

/-! ## The list of locales -/

/-- What is in the list about the place of a locale. -/
def Locale.entry (l : Locale) : LocCmd × ℕ × ℕ := (l.cmd, l.start, l.stop)

/-- The places of some sections, the first one at an offset -/
def entries : (pos : ℕ) → List LocSection → List (LocCmd × ℕ × ℕ)
  | _, [] => []
  | pos, s :: ss =>
      (s.cmd, pos + (fgetsLine s.head).length, pos + s.bytes.length) ::
        entries (pos + s.bytes.length) ss

theorem length_entries : ∀ (pos : ℕ) (ss : List LocSection),
    (entries pos ss).length = ss.length
  | _, [] => rfl
  | pos, s :: ss => congrArg (· + 1) (length_entries (pos + s.bytes.length) ss)

theorem LocLine.text_eq (ls : List LocLine) :
    LocLine.text ls = crlfLines (ls.map LocLine.bytes) := by
  rw [LocLine.text, crlfLines, List.flatMap_map]

namespace LocaleScan

/-- A section is put into the list when it ends. -/
theorem finish_entry {scan : LocaleScan} {cmd : LocCmd} {start pos : ℕ}
    (hlast : scan.last.map (fun l => (l.cmd, l.start)) = some (cmd, start))
    (hversion : scan.version = true) :
    (scan.finish pos).map Locale.entry
      = scan.locales.map Locale.entry ++ [(cmd, start, pos)] := by
  obtain ⟨l, hl, heq⟩ := Option.map_eq_some_iff.mp hlast
  obtain ⟨rfl, rfl⟩ := Prod.mk.inj heq
  rw [finish, hl]
  dsimp only
  rw [if_pos hversion, List.map_append]
  rfl

theorem readLines_section (scan : LocaleScan) (pos : ℕ) (s : LocSection) (rest : List UInt8) :
    ∃ scan' : LocaleScan, scan.readLines pos (chunks lf 1023 (s.bytes ++ rest)) =
        scan'.readLines (pos + s.bytes.length) (chunks lf 1023 rest) ∧
      (scan'.finish (pos + s.bytes.length)).map Locale.entry =
        (scan.finish pos).map Locale.entry ++
          [(s.cmd, pos + (fgetsLine s.head).length, pos + s.bytes.length)] := by
  let scan₁ : LocaleScan := ⟨scan.finish pos, some ⟨s.cmd, pos + (fgetsLine s.head).length, 0, 0⟩,
    false, scan.baseMajor, scan.baseMinor⟩
  have hhead : scan.readLine pos (fgetsLine s.head) = scan₁ := by
    rw [readLine_eq scan pos s.isLine, s.supported, Option.map_some, Option.getD_some, runCmd,
      s.locale]
  have hbody : ∀ line ∈ s.body.map LocLine.bytes, IsLocLine line ∧ NoHead line := by
    intro line hline
    obtain ⟨l, hl, rfl⟩ := List.mem_map.mp hline
    exact ⟨(s.isBlock.valid l hl).2, s.noHead l hl⟩
  obtain ⟨scan', hread, hsame, hversion⟩ := readLines_noHead rest _ scan₁
    (pos + (s.head ++ [cr, lf]).length) hbody
  have hcounts : scan'.version = true := by
    obtain ⟨l, hl, hv⟩ := s.version
    exact hversion (Option.some_ne_none _) ⟨l.bytes, List.mem_map_of_mem hl, hv⟩
  have hlen : pos + s.bytes.length =
      pos + (s.head ++ [cr, lf]).length + (crlfLines (s.body.map LocLine.bytes)).length := by
    rw [LocSection.bytes, LocLine.text_eq, List.length_append, Nat.add_assoc]
  refine ⟨scan', ?_, ?_⟩
  · rw [hlen, LocSection.bytes, LocLine.text_eq, List.append_assoc,
      readLines_line scan pos s.isLine, hhead]
    exact hread
  · rw [finish_entry hsame.last hcounts, hsame.locales]

/-- **The first pass** finds the sections. -/
theorem readLines_sections : ∀ (ss : List LocSection) (scan : LocaleScan) (pos : ℕ),
    (scan.readLines pos (chunks lf 1023 (ss.flatMap LocSection.bytes))).map Locale.entry =
      (scan.finish pos).map Locale.entry ++ entries pos ss := by
  intro ss
  induction ss with
  | nil =>
      intro scan pos
      exact (List.append_nil _).symm
  | cons s ss ih =>
      intro scan pos
      obtain ⟨scan', hread, hfinish⟩ :=
        scan.readLines_section pos s (ss.flatMap LocSection.bytes)
      rw [List.flatMap_cons, hread, ih, hfinish, List.append_assoc, List.singleton_append, entries]

end LocaleScan

theorem hasCrlf_cons (c : UInt8) {s : List UInt8} (h : hasCrlf s = true) :
    hasCrlf (c :: s) = true := by
  cases s with
  | nil => cases h
  | cons d s => rw [hasCrlf, h, Bool.or_true]

theorem hasCrlf_append (s w : List UInt8) : hasCrlf (s ++ cr :: lf :: w) = true := by
  induction s with
  | nil => rfl
  | cons c s ih => exact hasCrlf_cons c ih

namespace Localization

variable (T : Localization)

theorem firstLine : ∃ line rest, IsLocLine line ∧ T.content = line ++ cr :: lf :: rest := by
  have hsize := T.size
  rw [content, locContent]
  rw [locContent] at hsize
  cases hpreamble : T.preamble with
  | cons line lines =>
      refine ⟨line, crlfLines lines ++ T.sections.flatMap LocSection.bytes, ?_, ?_⟩
      · exact (T.isPreamble line (hpreamble ▸ List.mem_cons_self)).1
      · rw [crlfLines, List.flatMap_cons, List.append_assoc, List.append_assoc]
        rfl
  | nil =>
      cases hsections : T.sections with
      | cons s ss =>
          refine ⟨s.head, LocLine.text s.body ++ ss.flatMap LocSection.bytes, s.isLine, ?_⟩
          rw [List.flatMap_cons, LocSection.bytes, List.append_assoc, List.append_assoc]
          rfl
      | nil =>
          rw [hpreamble, hsections] at hsize
          cases hsize

theorem hasCrlf_content : hasCrlf (T.content.take 1024) = true := by
  obtain ⟨line, rest, hline, hcontent⟩ := T.firstLine
  obtain ⟨w, hw⟩ : ∃ w, (cr :: lf :: rest).take (1024 - line.length) = cr :: lf :: w := by
    obtain ⟨n, hn⟩ : ∃ n, 1024 - line.length = n + 2 := ⟨1022 - line.length, by
      have := hline.length
      omega⟩
    exact ⟨rest.take n, by rw [hn]; rfl⟩
  rw [hcontent, List.take_append, List.take_of_length_le (hline.length.trans (by decide)), hw]
  exact hasCrlf_append line w

theorem getSupportedLocales_content : (getSupportedLocales T.content).map Locale.entry =
    entries (crlfLines T.preamble).length T.sections := by
  have hsize : 1024 ≤ T.content.length := T.size
  have hlen : (T.content.take 1024).length = 1024 := by
    rw [List.length_take, Nat.min_eq_left hsize]
  have hhead : (T.content.take 1024).headD 0 = T.content.headD 0 := by
    cases T.content with
    | nil => rfl
    | cons c s => rfl
  have hbom : ¬0x80 < T.content.headD 0 := UInt8.not_lt.mpr T.noBom
  obtain ⟨scan, hread, hsame, -⟩ := LocaleScan.readLines_noHead
    (T.sections.flatMap LocSection.bytes) T.preamble .init 0 T.isPreamble
  have hlast : scan.last = none := Option.map_eq_none_iff.mp hsame.last
  rw [getSupportedLocales, if_neg (by rw [hlen, hhead, T.hasCrlf_content]; simpa using hbom)]
  have hcontent : chunks lf 1023 T.content = chunks lf 1023
      (T.preamble.flatMap (· ++ [cr, lf]) ++ T.sections.flatMap LocSection.bytes) := rfl
  rw [hcontent, hread, LocaleScan.readLines_sections, LocaleScan.finish, hlast,
    hsame.locales, Nat.zero_add]
  rfl

/-! ## The lines of a section -/

/-- Where a section is, and what is behind it -/
theorem entries_getElem : ∀ {ss : List LocSection} {k : ℕ} {s : LocSection} (pos : ℕ),
    ss[k]? = some s → ∃ front rest, ss.flatMap LocSection.bytes = front ++ (s.bytes ++ rest) ∧
      (∀ c ∈ rest.head?, BeginsLine c) ∧
      (entries pos ss)[k]? = some (s.cmd, pos + front.length + (fgetsLine s.head).length,
        pos + front.length + s.bytes.length) := by
  intro ss
  induction ss with
  | nil =>
      intro k s pos hk
      cases hk
  | cons s' ss ih =>
      intro k s pos hk
      cases k with
      | zero =>
          obtain rfl : s' = s := Option.some.inj hk
          refine ⟨[], ss.flatMap LocSection.bytes, rfl, fun c hc => ?_, rfl⟩
          cases ss with
          | nil => cases hc
          | cons s'' ss =>
              have hletter := s''.letter
              cases hhead : s''.head with
              | nil =>
                  rw [hhead] at hletter
                  cases hletter
              | cons d line =>
                  rw [hhead] at hletter
                  obtain rfl : d = 108 := Option.some.inj hletter
                  rw [List.flatMap_cons, LocSection.bytes, hhead] at hc
                  obtain rfl : 108 = c := Option.some.inj hc
                  exact ⟨by decide, by decide, by decide, by decide, by decide⟩
      | succ k =>
          obtain ⟨front, rest, hbytes, hrest, hentry⟩ := ih (pos + s'.bytes.length) hk
          refine ⟨s'.bytes ++ front, rest, ?_, hrest, ?_⟩
          · rw [List.flatMap_cons, hbytes, List.append_assoc]
          · rw [List.length_append, ← Nat.add_assoc]
            exact hentry

variable {T}

/-- **The second pass** comes to the lines of a section and no others. -/
theorem lines_of_section {k : ℕ} {s : LocSection} (hs : T.sections[k]? = some s)
    (behind : ℕ → ℕ → List UInt8) : ∃ l lines, (T.file behind).locales[k]? = some l ∧
      l.cmd = s.cmd ∧ (T.file behind).lines k l = (lines, true) ∧
      nonBlank lines = blockLines s.body := by
  obtain ⟨front, rest, hbytes, hrest, hentry⟩ :=
    entries_getElem (crlfLines T.preamble).length hs
  rw [← T.getSupportedLocales_content, List.getElem?_map] at hentry
  obtain ⟨l, hl, heq⟩ := Option.map_eq_some_iff.mp hentry
  obtain ⟨hcmd, hoffsets⟩ := Prod.mk.inj heq
  obtain ⟨hstart, hstop⟩ := Prod.mk.inj hoffsets
  have hcontent : T.content = crlfLines T.preamble ++ front ++ fgetsLine s.head ++
      (fgetsRest s.head ++ LocLine.text s.body ++ rest) := by
    rw [content, locContent, hbytes, LocSection.bytes, ← fgetsLine_append_rest]
    simp only [List.append_assoc]
  have hlen : (crlfLines T.preamble ++ front ++ fgetsLine s.head).length = l.start := by
    rw [hstart, List.length_append, List.length_append]
  have hend : l.start + (fgetsRest s.head ++ LocLine.text s.body).length = l.stop := by
    rw [hstart, hstop, LocSection.bytes, ← fgetsLine_append_rest]
    simp only [List.length_append, Nat.add_assoc]
  obtain ⟨lines, hread, hlines⟩ := readSection_block (behind k) s.body_ne_nil
    (fgetsRest_eq s.isLine.length) s.isBlock hcontent hrest
  rw [hlen, hend] at hread
  exact ⟨l, lines, hl, hcmd, hread, hlines⟩

end Localization

/-! ## What is passed -/

/-- Blanks in front of a line make no difference. -/
theorem getLocDataLine_dropWhile (line : List UInt8) :
    getLocDataLine (line.dropWhile isBlank) = getLocDataLine line := by
  rw [getLocDataLine, getLocDataLine, List.dropWhile_idempotent]

theorem filterMap_nonBlank (lines : List (List UInt8)) :
    (nonBlank lines).filterMap getLocDataLine = lines.filterMap getLocDataLine := by
  induction lines with
  | nil => rfl
  | cons line lines ih =>
      rw [nonBlank_cons, List.filterMap_append, ih, filterMap_cons_toList,
        ← getLocDataLine_dropWhile line, nonBlank, List.map_singleton]
      cases line.dropWhile isBlank with
      | nil => rfl
      | cons c s =>
          rw [List.filter_cons_of_pos (by simp), List.filter_nil, filterMap_cons_toList,
            List.filterMap_nil, List.append_nil]

namespace LocFile

/-- Some lines of a section are passed, one after the other. -/
def passBlock (F : LocFile) (load : ℕ → LocState → Option (Bool × LocState))
    (body : List LocLine) (st : LocState) : Option LocState :=
  (blockLines body).foldlM (F.passLine load) st

variable {F : LocFile} {load : ℕ → LocState → Option (Bool × LocState)} {k : ℕ} {l : Locale}
  {lines : List (List UInt8)} {body : List LocLine}

theorem readLocale_block (hlines : F.lines k l = (lines, true))
    (hblock : nonBlank lines = blockLines body) (st : LocState) :
    F.readLocale load k l st = (F.passBlock load body st).map (true, ·) := by
  have hfold : lines.foldlM (F.passLine load) st = F.passBlock load body st := by
    rw [passBlock, foldlM_passLine, foldlM_passLine, ← hblock, filterMap_nonBlank]
  rw [readLocale, hlines, ← hfold]
  exact Option.map_eq_bind.symm

/-- While the default locale is loaded, every line is dealt with. -/
theorem passBlock_populating (body : List LocLine) {st : LocState} (hst : Populating st) :
    ∃ st', F.passBlock load body st = some st' ∧ Populating st' :=
  foldlM_ends (fun line _ => F.passLine_populating load line) st hst

/-- What the calls for a locale pass, where `default` are the lines of the default
locale, and `body` its own. -/
structure Passes (F : LocFile) (default : List LocLine) (k : ℕ) (body : List LocLine) :
    Prop where
  /-- A call for a base, in the course of another one -/
  base : ∀ n st, LoadingCurrent st → F.getLocDataFile (n + 1) false k st =
    (F.passBlock (F.getLocDataFile n false) body st).map (true, ·)
  /-- A call from outside that is not the first one. For the default locale it passes
  nothing. -/
  later : ∀ n st table, Idle st → st.msgTable = some table →
    F.getLocDataFile (n + 1) true k st =
      if k = 0 then some (true, { st with msgTable := some .default })
      else (F.passBlock (F.getLocDataFile n false) body
          { st with msgTable := some .current, opened := true }).map
        fun st => (true, { st with opened := false })
  /-- The first call from outside, which passes the lines of the default locale and goes
  on as a later one. -/
  first : ∀ n st, Idle st → st.msgTable = none →
    ∃ st', F.passBlock (F.getLocDataFile n false) default
        ⟨true, true, some .default, st.default, st.current⟩ = some st' ∧
      st'.msgTable = some .default ∧
      F.getLocDataFile (n + 2) true k st =
        F.getLocDataFile (n + 2) true k { st' with opened := false, populateDefault := false }

variable {d : Locale} {dlines : List (List UInt8)} {default : List LocLine}

/-- The default locale is loaded in the first call. -/
theorem getLocDataFile_default_block (hd : F.locales[0]? = some d)
    (hlines : F.lines 0 d = (dlines, true)) (hblock : nonBlank dlines = blockLines default)
    (hcontent : F.content ≠ none) (n : ℕ) {st : LocState} (hopened : st.opened = false) :
    ∃ st', F.passBlock (F.getLocDataFile n false) default
        ⟨true, true, some .default, st.default, st.current⟩ = some st' ∧ Populating st' ∧
      F.getLocDataFile (n + 1) true 0
          { st with msgTable := some .default, populateDefault := true } =
        some (true, { st' with opened := false }) := by
  have hstart : Populating ⟨true, true, some .default, st.default, st.current⟩ := ⟨rfl, rfl, rfl⟩
  obtain ⟨st', hpass, hst'⟩ : ∃ st', F.passBlock (F.getLocDataFile n false) default
      ⟨true, true, some .default, st.default, st.current⟩ = some st' ∧ Populating st' :=
    F.passBlock_populating default hstart
  refine ⟨st', hpass, hst', ?_⟩
  rw [getLocDataFile_of_table hd rfl, loadLocale, hopened, if_neg Bool.false_ne_true,
    if_neg Bool.true_eq_false.mp, if_neg (fun h => Bool.true_eq_false.mp h.1), if_pos rfl,
    if_neg hcontent, readLocale_block hlines hblock, hpass]
  rfl

theorem passes_block (hl : F.locales[k]? = some l) (hlines : F.lines k l = (lines, true))
    (hblock : nonBlank lines = blockLines body) (hd : F.locales[0]? = some d)
    (hdlines : F.lines 0 d = (dlines, true)) (hdblock : nonBlank dlines = blockLines default)
    (hcontent : F.content ≠ none) : F.Passes default k body where
  base n st hst := by
    rw [getLocDataFile_nested hl hst, readLocale_block hlines hblock]
  later n st table hst htable := by
    rw [getLocDataFile_of_idle hst htable hl, if_neg hcontent, readLocale_block hlines hblock,
      Option.map_map]
    rfl
  first n st hst htable := by
    obtain ⟨st', hpass, hst', hload⟩ :=
      getLocDataFile_default_block hd hdlines hdblock hcontent n hst.opened
    refine ⟨st', hpass, hst'.msgTable, ?_⟩
    have hidle : ({ st' with opened := false, populateDefault := false } : LocState).msgTable
        = some .default := hst'.msgTable
    rw [getLocDataFile_of_table hl hidle, getLocDataFile, hl]
    dsimp only
    rw [if_pos htable, hload, hst.opened]
    rfl

end LocFile

/-- **The two passes agree.** -/
theorem passes_agree (T : Localization) (behind : ℕ → ℕ → List UInt8) {k : ℕ}
    {s default : LocSection} (hdefault : T.sections[0]? = some default)
    (hs : T.sections[k]? = some s) :
    (T.file behind).locales.length = T.sections.length ∧
    (∃ l lines, (T.file behind).locales[k]? = some l ∧ l.cmd = s.cmd ∧
      (T.file behind).lines k l = (lines, true) ∧ nonBlank lines = blockLines s.body) ∧
    (T.file behind).Passes default.body k s.body := by
  obtain ⟨l, lines, hl, hcmd, hlines, hblock⟩ := Localization.lines_of_section hs behind
  obtain ⟨d, dlines, hd, -, hdlines, hdblock⟩ := Localization.lines_of_section hdefault behind
  refine ⟨?_, ⟨l, lines, hl, hcmd, hlines, hblock⟩,
    LocFile.passes_block hl hlines hblock hd hdlines hdblock (Option.some_ne_none _)⟩
  rw [← length_entries (crlfLines T.preamble).length, ← T.getSupportedLocales_content,
    List.length_map]
  rfl

/-! ## A file with two locales -/

namespace Localization

/-- The default locale, with one message -/
def sectionA : LocSection where
  head := text "l \"a\" \"A\" 1"
  body := [.begins [] 118 (text " 1.0"), .begins [] 116 (text " MSG_001 \"x\"")]
  cmd := ⟨.locale, 0, [], [1], [text "a", text "A"]⟩
  isLine := by decide
  letter := rfl
  supported := by decide
  locale := rfl
  isBlock := by decide
  noHead := by decide
  version := ⟨_, List.mem_cons_self, ⟨.version, 0, [], [1, 0], []⟩, by decide, rfl, rfl⟩

/-- Another locale, whose message goes on in a second line -/
def sectionB : LocSection where
  head := text "l \"b\" \"B\" 2"
  body := [.begins [] 118 (text " 1.0"), .begins [] 116 (text " MSG_002 \"y\""), .blank [],
    .more [space] (text "z\"")]
  cmd := ⟨.locale, 0, [], [2], [text "b", text "B"]⟩
  isLine := by decide
  letter := rfl
  supported := by decide
  locale := rfl
  isBlock := by decide
  noHead := by decide
  version := ⟨_, List.mem_cons_self, ⟨.version, 0, [], [1, 0], []⟩, by decide, rfl, rfl⟩

set_option maxRecDepth 100000 in
/-- The file, which a comment makes as long as it has to be -/
def two : Localization where
  preamble := [hash :: .replicate 1000 minus]
  sections := [sectionA, sectionB]
  isPreamble := by decide
  size := by decide
  noBom := by decide

end Localization

/-- The line that goes on is passed once. -/
theorem passes_agree_two :
    (Localization.two.file fun _ _ => []).locales.length = 2 ∧
    (∃ l lines, (Localization.two.file fun _ _ => []).locales[1]? = some l ∧
      l.cmd = Localization.sectionB.cmd ∧
      (Localization.two.file fun _ _ => []).lines 1 l = (lines, true) ∧
      nonBlank lines = [text "v 1.0", text "t MSG_002 \"yz\""]) ∧
    (Localization.two.file fun _ _ => []).Passes Localization.sectionA.body 1
      Localization.sectionB.body := by
  have hlines : blockLines Localization.sectionB.body
      = [text "v 1.0", text "t MSG_002 \"yz\""] := by decide
  rw [← hlines]
  exact passes_agree Localization.two _ rfl rfl

set_option maxRecDepth 100000 in
theorem first_call_passes_default :
    ¬∀ (T : Localization) (behind : ℕ → ℕ → List UInt8) (k : ℕ) (s : LocSection),
      T.sections[k]? = some s → ∀ n st, LocFile.Idle st →
        ∃ table, (T.file behind).getLocDataFile (n + 2) true k st =
          ((T.file behind).passBlock ((T.file behind).getLocDataFile (n + 1) false) s.body
            { st with msgTable := some table, opened := true }).map
              fun st => (true, { st with opened := false }) := by
  intro h
  let F : LocFile := Localization.two.file fun _ _ => []
  let st : LocState := ⟨false, false, none, fun _ => none, fun _ => none⟩
  obtain ⟨table, hcall⟩ := h Localization.two (fun _ _ => []) 1 Localization.sectionB rfl 0 st
    ⟨rfl, rfl⟩
  -- the text of the default locale's message, behind the call
  have hdefault := congrArg (Option.map (·.2.default 1)) hcall
  have hpassed : (F.getLocDataFile 2 true 1 st).map (·.2.default 1) = some (some (text "x")) := by
    decide
  rw [hpassed] at hdefault
  cases table with
  | default => exact absurd hdefault (by decide)
  | current => exact absurd hdefault (by decide)

end Nawam
