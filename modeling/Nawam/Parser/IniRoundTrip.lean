import Mathlib.Data.Bool.AllAny
import Nawam.Parser.IniSettings

/-!
# Writing a setting and reading it back

The lines of the text after a write are the lines before it with the written
ones in place of those that the writer took, or with what a line at the end
makes of the last one. Every line but these reads as before; a written line
reads as the value for its key and as nothing for every other, as far as it fits
the buffer. From this `writeIniKeyStr_roundTrips_iff` says when a write does
what it should, and `survives_of_fits` that it does in any ordinary file.
-/

namespace Nawam

variable {text token data : List Wchar}

/-! ## The text as lines -/

theorem KeyFront.newline_not_mem {front : List Wchar} (htoken : IsToken token)
    (h : KeyFront token front) : newline ∉ front := by
  obtain ⟨s₁, token', s₂, s₃, rfl, hsame, hblank₁, hblank₂, hblank₃⟩ := h
  have hspace {s : List Wchar} (hs : ∀ c ∈ s, isWspace c = true) : newline ∉ s :=
    fun hmem => absurd (hs newline hmem) (by decide)
  have hkey : newline ∉ token' := fun hmem =>
    absurd (isKeyChar_of_same htoken hsame newline hmem) (by decide)
  simp only [List.mem_append, List.mem_cons, not_or]
  exact ⟨⟨⟨hspace hblank₁, hkey⟩, hspace hblank₂⟩, by decide, hspace hblank₃⟩

structure LinesOf (text : List Wchar) (ls : List (List Wchar)) (last : List Wchar) :
    Prop where
  text_eq : text = unlines newline ls ++ last
  line : ∀ l ∈ ls, newline ∉ l ∧ l.length < lineSize
  last_mem : newline ∉ last
  last_length : last.length < lineSize

theorem IniText.exists_lines (h : IniText text) : ∃ ls last, LinesOf text ls last := by
  obtain ⟨ls, last, htext, hls, hlast⟩ := exists_unlines newline text
  refine ⟨ls, last, htext, fun l hl => ⟨hls l hl, h.short l ?_ (hls l hl)⟩, hlast,
    h.short last ⟨_, [], by rw [List.append_nil]; exact htext.symm⟩ hlast⟩
  obtain ⟨before, after, rfl⟩ := List.append_of_mem hl
  refine ⟨unlines newline before, newline :: (unlines newline after ++ last), ?_⟩
  simp only [htext, unlines_append, unlines_cons, List.append_assoc, List.cons_append]

namespace LinesOf

variable {ls : List (List Wchar)} {last : List Wchar} (h : LinesOf text ls last)
include h

/-- The lines are read one by one, whatever follows them. -/
theorem iniLines_append (rest : List Wchar) :
    iniLines (unlines newline ls ++ rest) =
      ls.map (· ++ [newline]) ++ iniLines rest := by
  have hends : ∀ t ∈ ls.map (· ++ [newline]), ∃ l, t = l ++ [newline] := by
    intro t ht
    obtain ⟨l, -, rfl⟩ := List.mem_map.mp ht
    exact ⟨l, rfl⟩
  have hsingle : ls.flatMap (fun l => chunks newline lineSize (l ++ [newline])) =
      ls.map (· ++ [newline]) := by
    rw [List.map_eq_flatMap]
    refine List.flatMap_congr fun l hl => ?_
    exact chunks_line (h.line l hl).1 (h.line l hl).2
  rw [iniLines, unlines, chunks_flatten rest hends, List.flatMap_map, hsingle]
  rfl

theorem iniLines_eq : iniLines text = ls.map (· ++ [newline]) ++ iniLines last := by
  rw [h.text_eq]
  exact h.iniLines_append last

theorem iniLines_last : iniLines last = if last = [] then [] else [last] := by
  split
  case isTrue hnil =>
    rw [hnil]
    rfl
  case isFalse hne => exact chunks_open h.last_mem hne h.last_length.le

theorem openLine_eq : openLine newline text = last := by
  rw [h.text_eq]
  exact openLine_unlines h.last_mem

theorem iniLines_line {line : List Wchar} (hline : line ∈ iniLines text) :
    iniLines line = [line] := by
  rw [h.iniLines_eq, h.iniLines_last] at hline
  rcases List.mem_append.mp hline with hline | hline
  · obtain ⟨l, hl, rfl⟩ := List.mem_map.mp hline
    exact chunks_line (h.line l hl).1 (h.line l hl).2
  · split at hline
    case isTrue => cases hline
    case isFalse hne =>
      rw [List.mem_singleton.mp hline]
      exact chunks_open h.last_mem hne h.last_length.le

/-- The front of a line leaves room for data in the buffer. -/
theorem front_lt {front rest : List Wchar} (hline : front ++ rest ∈ iniLines text)
    (hfront : newline ∉ front) : front.length < lineSize := by
  rw [h.iniLines_eq, h.iniLines_last] at hline
  rcases List.mem_append.mp hline with hline | hline
  · obtain ⟨l, hl, heq⟩ := List.mem_map.mp hline
    have hle : front.length ≤ l.length := by
      by_contra hgt
      have hall : l ++ [newline] <+: front ++ rest :=
        ⟨[], by rw [List.append_nil]; exact heq⟩
      have hpre : l ++ [newline] <+: front := by
        refine List.prefix_of_prefix_length_le hall (List.prefix_append _ _) ?_
        rw [List.length_append, List.length_singleton]
        omega
      exact hfront (hpre.subset (by simp))
    exact hle.trans_lt (h.line l hl).2
  · split at hline
    case isTrue => cases hline
    case isFalse =>
      have hlen := congrArg List.length (List.mem_singleton.mp hline)
      rw [List.length_append] at hlen
      have hlast := h.last_length
      omega

end LinesOf

/-! ## What is found -/

theorem getTokenDataFile_eq (htoken : IsToken token) (text : List Wchar) :
    getTokenDataFile token text = firstData token (iniLines text) := by
  rw [getTokenDataFile, getTokenDataFileIndexed, if_neg (by simp [htoken.ne_nil]),
    firstData, ← List.head?_filterMap, List.head?_eq_getElem?]

theorem firstData_append (token : List Wchar) (ls ls' : List (List Wchar)) :
    firstData token (ls ++ ls') = (firstData token ls).or (firstData token ls') :=
  List.findSome?_append

theorem getTokenDataLine_ne_nil {line : List Wchar}
    (h : getTokenDataLine token line = some data) : data ≠ [] := by
  have hsome {found : List Wchar}
      (h : (if found = [] then none else some found) = some data) : data ≠ [] := by
    split at h
    case isTrue => cases h
    case isFalse hne =>
      cases h
      exact hne
  have hdata {xml : Bool} {s : List Wchar} (h : lineData xml s = some data) :
      data ≠ [] := hsome h
  unfold getTokenDataLine at h
  split at h
  case isTrue => cases h
  case isFalse =>
    obtain ⟨s, -, h⟩ := Option.bind_eq_some_iff.mp h
    split at h
    case h_1 => exact hdata h
    case h_2 => exact hdata h
    case h_3 => cases h

/-- Nothing is read only where nothing is found. -/
theorem settingStr_firstData_eq_nil {lines : List (List Wchar)} :
    settingStr (firstData token lines) = [] ↔ firstData token lines = none := by
  cases hfirst : firstData token lines with
  | none => simp [settingStr]
  | some data =>
      obtain ⟨line, -, hline⟩ := List.exists_of_findSome?_eq_some hfirst
      simp [settingStr_ne_nil (getTokenDataLine_ne_nil hline)]

/-! ## A written line -/

/-- **What a written line is read as**: its first piece holds as much of the data
as there is room for. -/
theorem iniLines_written {front : List Wchar} (hfront : newline ∉ front)
    (hroom : front.length < lineSize) (hdata : IsData data) :
    ∃ m tail rest, iniLines (front ++ data ++ [newline]) =
        (front ++ (data.take m ++ tail)) :: rest ∧ 0 < m ∧
      (tail = [] ∨ tail = [newline]) ∧
      (front.length + data.length ≤ lineSize → data.take m = data ∧
        (rest = [] ∨ rest = [[newline]])) ∧
      (lineSize < front.length + data.length → m < data.length) := by
  have hmem : newline ∉ front ++ data := by
    rw [List.mem_append, not_or]
    exact ⟨hfront, fun hin => absurd (hdata.chars newline hin).2 (by decide)⟩
  have hpos : 0 < data.length := List.length_pos_of_ne_nil hdata.ne_nil
  have hlen : (front ++ data).length = front.length + data.length :=
    List.length_append
  rcases Nat.lt_trichotomy (front.length + data.length) lineSize with hlt | heq | hgt
  · refine ⟨data.length, [newline], [], ?_, hpos, .inr rfl, fun _ => ⟨?_, .inl rfl⟩,
      fun hlong => by omega⟩
    · rw [iniLines, chunks_line hmem (hlen ▸ hlt), List.take_length, List.append_assoc]
    · exact List.take_length
  · refine ⟨data.length, [], [[newline]], ?_, hpos, .inl rfl,
      fun _ => ⟨List.take_length, .inr rfl⟩, fun hlong => by omega⟩
    rw [iniLines, chunks_full hmem (hlen.trans heq) (by decide), List.take_length,
      List.append_nil]
  · have hsplit : front ++ data ++ [newline] =
        (front ++ data.take (lineSize - front.length)) ++
          (data.drop (lineSize - front.length) ++ [newline]) := by
      rw [List.append_assoc, List.append_assoc, ← List.append_assoc (List.take _ _),
        List.take_append_drop]
    have hpiece : newline ∉ front ++ data.take (lineSize - front.length) := by
      intro hin
      refine hmem ?_
      rcases List.mem_append.mp hin with hin | hin
      · exact List.mem_append_left _ hin
      · exact List.mem_append_right _ (List.mem_of_mem_take hin)
    have hsize : (front ++ data.take (lineSize - front.length)).length = lineSize := by
      rw [List.length_append, List.length_take]
      omega
    refine ⟨lineSize - front.length, [],
      iniLines (data.drop (lineSize - front.length) ++ [newline]), ?_, by omega,
      .inl rfl, fun hshort => absurd hgt (not_lt.mpr hshort), fun _ => by omega⟩
    rw [hsplit, iniLines, chunks, chunksFrom_full _ hpiece hsize (by decide),
      List.append_nil]
    rfl

section

variable {line : List Wchar} {ls : List (List Wchar)} {last : List Wchar}

/-- A line that the writer takes is read by no other key, before and after. -/
theorem firstData_putLine_other (htoken : IsToken token) (hdata : IsData data)
    (htext : LinesOf text ls last) (hline : line ∈ iniLines text)
    {other : List Wchar} (hother : IsToken other) (hne : ¬SameToken other token) :
    firstData other (iniLines (putLine token data line)) =
      firstData other (line :: (iniLines (putLine token data line)).tail) := by
  cases hset : setTokenDataLine token data line with
  | none =>
      rw [putLine, hset, Option.getD_none, htext.iniLines_line hline]
      rfl
  | some out =>
      obtain ⟨front, rest, hfront, rfl, rfl⟩ := setTokenDataLine_front hset
      have hmem := hfront.newline_not_mem htoken
      obtain ⟨m, tail, pieces, hlines, -⟩ :=
        iniLines_written hmem (htext.front_lt hline hmem) hdata
      have hnone (rest : List Wchar) : getTokenDataLine other (front ++ rest) = none :=
        @getTokenDataLine_other token front htoken hfront [] rest rfl other hother hne
      have hbefore := hnone rest
      have hafter := hnone (data.take m ++ tail)
      rw [putLine, hset, Option.getD_some, hlines, List.tail_cons, firstData,
        List.findSome?_cons, hafter, firstData, List.findSome?_cons, hbefore]

/-- **A written line is read as the value** if it fits, and as less otherwise. -/
theorem firstData_putLine (htoken : IsToken token) (hdata : IsData data)
    (htext : LinesOf text ls last) (hline : line ∈ iniLines text)
    (htaken : isTaken token data line = true) :
    ∃ m, firstData token (iniLines (putLine token data line)) = some (data.take m) ∧
      ((putLine token data line).length ≤ lineSize + 1 → data.take m = data) ∧
      (lineSize + 1 < (putLine token data line).length → m < data.length) := by
  obtain ⟨out, hset⟩ := Option.isSome_iff_exists.mp htaken
  obtain ⟨front, rest, hfront, rfl, rfl⟩ := setTokenDataLine_front hset
  have hmem := hfront.newline_not_mem htoken
  obtain ⟨m, tail, pieces, hlines, hpos, htail, hfits, hlong⟩ :=
    iniLines_written hmem (htext.front_lt hline hmem) hdata
  have hread : getTokenDataLine token (front ++ (data.take m ++ tail)) =
      lineData false (data.take m ++ tail) :=
    @getTokenDataLine_front token front htoken hfront [] (data.take m ++ tail) rfl
  rw [lineData_of_isData (hdata.take hpos) htail] at hread
  have hlen : (front ++ data ++ [newline]).length = front.length + data.length + 1 := by
    rw [List.length_append, List.length_append, List.length_singleton]
  rw [putLine, hset, Option.getD_some, hlen]
  refine ⟨m, ?_, fun hle => (hfits (by omega)).1, fun hgt => hlong (by omega)⟩
  rw [hlines, firstData, List.findSome?_cons, hread]

end

/-! ## The lines after a write -/

theorem putLine_of_not_taken {line : List Wchar} (h : isTaken token data line = false) :
    putLine token data line = line := by
  have hnone : setTokenDataLine token data line = none := by simpa [isTaken] using h
  rw [putLine, hnone]
  rfl

theorem iniLines_join (text : List Wchar) : (iniLines text).flatten = text :=
  chunksFrom_join text lineSize

/-- Where the writer takes none of them they are all there is. -/
theorem flatten_putLine (hnone : ∀ line ∈ iniLines text, isTaken token data line = false) :
    ((iniLines text).map (putLine token data)).flatten = text := by
  have hsame : (iniLines text).map (putLine token data) = iniLines text :=
    (List.map_congr_left fun line hline => putLine_of_not_taken (hnone line hline)).trans
      (List.map_id _)
  rw [hsame, iniLines_join]

/-- What is put out for a line is made of the line and the data. -/
theorem mem_putLine {line : List Wchar} {c : Wchar} (hc : c ∈ putLine token data line) :
    c ∈ line ∨ c ∈ data ∨ c = newline := by
  cases hset : setTokenDataLine token data line with
  | none =>
      rw [putLine, hset] at hc
      exact .inl hc
  | some out =>
      obtain ⟨front, rest, -, rfl, rfl⟩ := setTokenDataLine_front hset
      rw [putLine, hset, Option.getD_some, List.mem_append, List.mem_append,
        List.mem_singleton] at hc
      rcases hc with (hc | hc) | hc
      · exact .inl (List.mem_append_left _ hc)
      · exact .inr (.inl hc)
      · exact .inr (.inr hc)

section

variable {ls : List (List Wchar)} {last : List Wchar} (htext : LinesOf text ls last)
include htext

theorem iniLines_putLine (token data : List Wchar) :
    iniLines ((iniLines text).map (putLine token data)).flatten =
      (iniLines text).flatMap fun line => iniLines (putLine token data line) := by
  have hends : ∀ t ∈ (ls.map (· ++ [newline])).map (putLine token data),
      ∃ l, t = l ++ [newline] := by
    intro t ht
    obtain ⟨line, hline, rfl⟩ := List.mem_map.mp ht
    obtain ⟨l, -, rfl⟩ := List.mem_map.mp hline
    cases hset : setTokenDataLine token data (l ++ [newline]) with
    | none => exact ⟨l, by rw [putLine, hset, Option.getD_none]⟩
    | some out =>
        obtain ⟨front, -, -, -, rfl⟩ := setTokenDataLine_front hset
        exact ⟨front ++ data, by rw [putLine, hset, Option.getD_some]⟩
  have hlast : iniLines ((iniLines last).map (putLine token data)).flatten =
      (iniLines last).flatMap fun line => iniLines (putLine token data line) := by
    rw [htext.iniLines_last]
    split
    case isTrue => rfl
    case isFalse => simp
  rw [htext.iniLines_eq, List.map_append, List.flatten_append, iniLines,
    chunks_flatten _ hends, List.flatMap_append, List.flatMap_map]
  exact congrArg (_ ++ ·) hlast

/-- With a line appended, glued to what has no line break. -/
theorem iniLines_newLine (token data : List Wchar) :
    iniLines (text ++ newLine token data) =
      ls.map (· ++ [newline]) ++ iniLines (last ++ newLine token data) := by
  rw [htext.text_eq, List.append_assoc]
  exact htext.iniLines_append _

/-- Without a line that the writer takes, the earlier lines are those with a line
break. -/
theorem earlierLines_of_none
    (hnone : ∀ line ∈ iniLines text, isTaken token data line = false) :
    earlierLines token data text = ls.map (· ++ [newline]) := by
  rw [htext.iniLines_eq] at hnone
  rw [earlierLines, htext.iniLines_eq, List.takeWhile_append_of_pos, htext.iniLines_last]
  · have hlast : last.getLast? ≠ some newline := fun heq =>
      htext.last_mem (List.mem_of_getLast? heq)
    split
    case isTrue => simp
    case isFalse => simp [hlast]
  · intro line hline
    have hfalse := hnone line (List.mem_append_left _ hline)
    obtain ⟨l, -, rfl⟩ := List.mem_map.mp hline
    simp [hfalse]

/-- Otherwise they are those before the first one it takes. -/
theorem exists_earlierLines (htaken : (iniLines text).any (isTaken token data) = true) :
    ∃ line rest, iniLines text = earlierLines token data text ++ line :: rest ∧
      (iniLines text).find? (isTaken token data) = some line ∧
      isTaken token data line = true ∧
      ∀ l ∈ earlierLines token data text, isTaken token data l = false := by
  obtain ⟨line, hfind⟩ := Option.isSome_iff_exists.mp
    (List.find?_isSome.mpr (List.any_eq_true.mp htaken))
  obtain ⟨hline, before, rest, heq, hbefore⟩ := List.find?_eq_some_iff_append.mp hfind
  have hbefore : ∀ l ∈ before, isTaken token data l = false := fun l hl => by
    simpa using hbefore l hl
  -- all lines but the last one have a line break
  have hbreak : ∀ l ∈ before, l.getLast? = some newline := by
    intro l hl
    have hmem : l ∈ ls.map (· ++ [newline]) := by
      have hlines := htext.iniLines_eq
      rw [heq] at hlines
      rcases List.append_eq_append_iff.mp hlines with ⟨c, hc, -⟩ | ⟨c, hc, hlast⟩
      · exact hc ▸ List.mem_append_left c hl
      · have hnil : c = [] := by
          have hlen := congrArg List.length hlast
          rw [htext.iniLines_last, List.length_append, List.length_cons] at hlen
          refine List.length_eq_zero_iff.mp ?_
          split at hlen
          case isTrue => simp at hlen
          case isFalse =>
            rw [List.length_singleton] at hlen
            omega
        rwa [hc, hnil, List.append_nil] at hl
    obtain ⟨l', -, rfl⟩ := List.mem_map.mp hmem
    exact List.getLast?_concat
  have hearlier : earlierLines token data text = before := by
    rw [earlierLines, heq, List.takeWhile_append_of_pos, List.takeWhile_cons_of_neg,
      List.append_nil]
    · simp [hline]
    · intro l hl
      simp [hbefore l hl, hbreak l hl]
  rw [hearlier]
  exact ⟨line, rest, heq, hfind, hline, hbefore⟩

end

/-! ## The round trip -/

section

variable {key value : List UInt8}

/-- Reading a setting is looking through the lines. -/
theorem readIniKeyStr_eq (hkey : IsKey key) (text : List Wchar) :
    readIniKeyStr key text =
      settingStr (firstData (utf8ToWchar key) (iniLines (beforeEof text))) := by
  rw [readIniKeyStr, getTokenDataFile_eq hkey]

theorem ctrlZ_not_mem_beforeEof (text : List Wchar) : ctrlZ ∉ beforeEof text := by
  intro hmem
  have hne := List.mem_takeWhile_imp hmem
  simp at hne

/-- A text without a Ctrl-Z is read to its end. -/
theorem beforeEof_eq (h : ctrlZ ∉ text) : beforeEof text = text := by
  refine List.takeWhile_eq_self_iff.mpr fun c hc => ?_
  have hne : c ≠ ctrlZ := fun heq => h (heq ▸ hc)
  simpa using hne

theorem IniText.beforeEof (h : IniText text) : IniText (beforeEof text) where
  noNul c hc := h.noNul c ((List.takeWhile_prefix _).subset hc)
  short line hline := h.short line (hline.trans (List.takeWhile_prefix _).isInfix)

theorem ctrlZ_not_mem_readIniKeyStr (hkey : IsKey key) (text : List Wchar) :
    (26 : UInt8) ∉ readIniKeyStr key text := by
  intro hmem
  rw [readIniKeyStr_eq hkey] at hmem
  cases hfirst : firstData (utf8ToWchar key) (iniLines (beforeEof text)) with
  | none =>
      rw [hfirst] at hmem
      cases hmem
  | some data =>
      rw [hfirst] at hmem
      have hdata : ctrlZ ∈ data :=
        mem_of_mem_wcharToUtf8 (by decide) (List.mem_of_mem_take hmem)
      obtain ⟨line, hline, hfound⟩ := List.exists_of_findSome?_eq_some hfirst
      have hin := List.mem_flatten_of_mem hline (getTokenDataLine_subset hfound hdata)
      rw [iniLines_join] at hin
      exact ctrlZ_not_mem_beforeEof text hin

/-- What an earlier line gives a key, nothing behind it changes. -/
theorem settingStr_or {a : Option (List Wchar)} {b c : Option (List Wchar)} :
    settingStr (a.or b) = settingStr (a.or c) ↔
      (a = none → settingStr b = settingStr c) := by
  cases a with
  | none => simp
  | some data => simp

variable {ls : List (List Wchar)} {last : List Wchar}

/-- The value, where a line is written that the writer takes. -/
theorem written_inPlace_iff (htext : LinesOf text ls last) (hkey : IsKey key)
    (hvalue : IsValue value) (hne : value ≠ [])
    (htaken : (iniLines text).any (isTaken (utf8ToWchar key) (utf8ToWchar value)) = true) :
    settingStr (firstData (utf8ToWchar key) ((iniLines text).flatMap fun line =>
        iniLines (putLine (utf8ToWchar key) (utf8ToWchar value) line))) = value ↔
      (∀ data ∈ firstData (utf8ToWchar key)
        (earlierLines (utf8ToWchar key) (utf8ToWchar value) text),
          settingStr (some data) = value) ∧
      (firstData (utf8ToWchar key)
          (earlierLines (utf8ToWchar key) (utf8ToWchar value) text) = none →
        ∀ line, (iniLines text).find? (isTaken (utf8ToWchar key) (utf8ToWchar value)) =
            some line →
          (putLine (utf8ToWchar key) (utf8ToWchar value) line).length ≤ lineSize + 1) := by
  have hdata := hvalue.isData hne
  obtain ⟨line, rest, hlines, hfind, hline, hearlier⟩ :=
    exists_earlierLines htext htaken
  have hmem : line ∈ iniLines text := by
    rw [hlines]
    exact List.mem_append_right _ List.mem_cons_self
  obtain ⟨m, hread, hfits, hlong⟩ := firstData_putLine hkey hdata htext hmem hline
  have hbefore : (earlierLines (utf8ToWchar key) (utf8ToWchar value) text).flatMap
      (fun l => iniLines (putLine (utf8ToWchar key) (utf8ToWchar value) l)) =
        earlierLines (utf8ToWchar key) (utf8ToWchar value) text := by
    have hone : ∀ l ∈ earlierLines (utf8ToWchar key) (utf8ToWchar value) text,
        iniLines (putLine (utf8ToWchar key) (utf8ToWchar value) l) = [l] := by
      intro l hl
      rw [putLine_of_not_taken (hearlier l hl)]
      refine htext.iniLines_line ?_
      rw [hlines]
      exact List.mem_append_left _ hl
    rw [List.flatMap_congr hone]
    simp
  rw [hfind, hlines, List.flatMap_append, hbefore, List.flatMap_cons, firstData_append,
    firstData_append, hread]
  cases hfirst : firstData (utf8ToWchar key)
      (earlierLines (utf8ToWchar key) (utf8ToWchar value) text) with
  | some data => simp
  | none =>
      have htake : settingStr (some ((utf8ToWchar value).take m)) = value ↔
          (putLine (utf8ToWchar key) (utf8ToWchar value) line).length ≤ lineSize + 1 := by
        constructor
        · intro heq
          by_contra hgt
          have hlt := hlong (by omega)
          rw [hvalue.settingStr_take] at heq
          have hlen := congrArg List.length heq
          rw [List.length_take] at hlen
          simp only [utf8ToWchar, List.length_map] at hlt
          omega
        · intro hle
          rw [hfits hle, hvalue.settingStr_eq]
      simpa using htake

/-- The other keys, where a line is written that the writer takes. -/
theorem others_inPlace (htext : LinesOf text ls last) (hkey : IsKey key)
    (hvalue : IsValue value) (hne : value ≠ []) {other : List UInt8}
    (hother : IsKey other) (hsame : ¬SameKey other key) :
    firstData (utf8ToWchar other) ((iniLines text).flatMap fun line =>
        iniLines (putLine (utf8ToWchar key) (utf8ToWchar value) line)) =
      firstData (utf8ToWchar other) ((iniLines text).flatMap fun line =>
        line :: (iniLines (putLine (utf8ToWchar key) (utf8ToWchar value) line)).tail) := by
  have hline : ∀ line ∈ iniLines text, _ := fun line hline =>
    firstData_putLine_other hkey (hvalue.isData hne) htext hline hother hsame
  generalize iniLines text = lines at hline
  induction lines with
  | nil => rfl
  | cons line lines ih =>
      rw [List.flatMap_cons, List.flatMap_cons, firstData_append, firstData_append,
        hline line List.mem_cons_self,
        ih fun l hl => hline l (List.mem_cons_of_mem line hl)]

theorem roundTrips_iff : RoundTrips text key value ↔
    readIniKeyStr key (writeIniKeyStr key value text).2 = value ∧
      ∀ other, IsKey other → ¬SameKey other key → readIniKeyStr other
        (writeIniKeyStr key value text).2 = readIniKeyStr other text :=
  ⟨fun h => ⟨h.written, h.others⟩, fun h => ⟨h.1, h.2⟩⟩

theorem writeIniKeyStr_snd (hkey : IsKey key) (hvalue : IsValue value)
    (hne : value ≠ []) {text' : List Wchar} (heof : beforeEof text = text') :
    (writeIniKeyStr key value text).2 =
      if (iniLines text').any (isTaken (utf8ToWchar key) (utf8ToWchar value)) then
        ((iniLines text').map (putLine (utf8ToWchar key) (utf8ToWchar value))).flatten
      else ((iniLines text').map (putLine (utf8ToWchar key) (utf8ToWchar value))).flatten ++
        newLine (utf8ToWchar key) (utf8ToWchar value) := by
  have hnotNull : ¬(utf8ToWchar key = [] ∨ utf8ToWchar value = []) := by
    rintro (hnil | hnil)
    · exact hkey.ne_nil hnil
    · exact (hvalue.isData hne).ne_nil hnil
  have hset : setTokenDataFile (utf8ToWchar key) (utf8ToWchar value) text' =
      if (iniLines text').any (isTaken (utf8ToWchar key) (utf8ToWchar value)) then
        some ((iniLines text').map (putLine (utf8ToWchar key) (utf8ToWchar value))).flatten
      else some
        (((iniLines text').map (putLine (utf8ToWchar key) (utf8ToWchar value))).flatten ++
          newLine (utf8ToWchar key) (utf8ToWchar value)) := if_neg hnotNull
  rw [writeIniKeyStr, heof, hset]
  by_cases htaken : (iniLines text').any
      (isTaken (utf8ToWchar key) (utf8ToWchar value)) = true
  · rw [if_pos htaken, if_pos htaken]
  · rw [if_neg htaken, if_neg htaken]

/-- What a write leaves is read to its end. -/
theorem beforeEof_written (hkey : IsKey key) (hvalue : IsValue value) (hne : value ≠ [])
    (hplain : ctrlZ ∉ utf8ToWchar value) :
    beforeEof (writeIniKeyStr key value text).2 = (writeIniKeyStr key value text).2 := by
  refine beforeEof_eq ?_
  have hput : ctrlZ ∉ ((iniLines (beforeEof text)).map
      (putLine (utf8ToWchar key) (utf8ToWchar value))).flatten := by
    intro hmem
    obtain ⟨out, hout, hin⟩ := List.mem_flatten.mp hmem
    obtain ⟨line, hline, rfl⟩ := List.mem_map.mp hout
    rcases mem_putLine hin with hold | hnew | hbreak
    · have htext := List.mem_flatten_of_mem hline hold
      rw [iniLines_join] at htext
      exact ctrlZ_not_mem_beforeEof text htext
    · exact hplain hnew
    · exact absurd hbreak (by decide)
  rw [writeIniKeyStr_snd hkey hvalue hne rfl]
  split
  case isTrue => exact hput
  case isFalse =>
    have htoken : ctrlZ ∉ utf8ToWchar key := fun hmem =>
      absurd (hkey.chars ctrlZ hmem) (by decide)
    have hline : ctrlZ ∉ newLine (utf8ToWchar key) (utf8ToWchar value) := by
      simp only [newLine, List.mem_append, not_or]
      exact ⟨⟨⟨htoken, by decide⟩, hplain⟩, by decide⟩
    exact fun hmem => (List.mem_append.mp hmem).elim hput hline

theorem roundTrips_beforeEof_iff (hkey : IsKey key) (hvalue : IsValue value)
    (hne : value ≠ []) :
    RoundTrips (beforeEof text) key value ↔ RoundTrips text key value := by
  have heof : beforeEof (beforeEof text) = beforeEof text :=
    beforeEof_eq (ctrlZ_not_mem_beforeEof text)
  have hwrite : (writeIniKeyStr key value (beforeEof text)).2 =
      (writeIniKeyStr key value text).2 := by
    rw [writeIniKeyStr_snd hkey hvalue hne heof, writeIniKeyStr_snd hkey hvalue hne rfl]
  have hread (other : List UInt8) :
      readIniKeyStr other (beforeEof text) = readIniKeyStr other text := by
    rw [readIniKeyStr, heof, readIniKeyStr]
  simp only [roundTrips_iff, hwrite, hread]

section

variable (htext : LinesOf text ls last) (heof : beforeEof text = text) (hkey : IsKey key)
  (hvalue : IsValue value) (hne : value ≠ []) (hplain : ctrlZ ∉ utf8ToWchar value)
include htext heof hkey hvalue hne hplain

/-- A write into the lines of the key. -/
theorem roundTrips_inPlace_iff
    (htaken : (iniLines text).any (isTaken (utf8ToWchar key) (utf8ToWchar value)) = true) :
    RoundTrips text key value ↔
      (∀ data ∈ firstData (utf8ToWchar key)
        (earlierLines (utf8ToWchar key) (utf8ToWchar value) text),
          settingStr (some data) = value) ∧ InPlace text key value := by
  have hwrite : iniLines (beforeEof (writeIniKeyStr key value text).2) =
      (iniLines text).flatMap fun line =>
        iniLines (putLine (utf8ToWchar key) (utf8ToWchar value) line) := by
    rw [beforeEof_written hkey hvalue hne hplain,
      writeIniKeyStr_snd hkey hvalue hne heof, if_pos htaken]
    exact iniLines_putLine htext _ _
  rw [roundTrips_iff, readIniKeyStr_eq hkey, hwrite,
    written_inPlace_iff htext hkey hvalue hne htaken]
  constructor
  · rintro ⟨⟨hshadow, hfits⟩, hothers⟩
    refine ⟨hshadow, hfits, fun other hother hsame => ?_⟩
    have hkept := hothers other hother hsame
    rwa [readIniKeyStr_eq hother, readIniKeyStr_eq hother, hwrite, heof,
      others_inPlace htext hkey hvalue hne hother hsame] at hkept
  · rintro ⟨hshadow, hfits, hspill⟩
    refine ⟨⟨hshadow, hfits⟩, fun other hother hsame => ?_⟩
    rw [readIniKeyStr_eq hother, readIniKeyStr_eq hother, hwrite, heof,
      others_inPlace htext hkey hvalue hne hother hsame]
    exact hspill other hother hsame

theorem roundTrips_atEnd_iff
    (hnone : ¬(iniLines text).any (isTaken (utf8ToWchar key) (utf8ToWchar value)) = true) :
    RoundTrips text key value ↔
      (∀ data ∈ firstData (utf8ToWchar key)
        (earlierLines (utf8ToWchar key) (utf8ToWchar value) text),
          settingStr (some data) = value) ∧ AtEnd text key value := by
  have hfalse : ∀ line ∈ iniLines text,
      isTaken (utf8ToWchar key) (utf8ToWchar value) line = false := by
    simpa using hnone
  have hearlier := earlierLines_of_none htext hfalse
  have hwrite : iniLines (beforeEof (writeIniKeyStr key value text).2) =
      earlierLines (utf8ToWchar key) (utf8ToWchar value) text ++
        iniLines (openLine newline text ++
          newLine (utf8ToWchar key) (utf8ToWchar value)) := by
    rw [beforeEof_written hkey hvalue hne hplain,
      writeIniKeyStr_snd hkey hvalue hne heof, if_neg hnone,
      flatten_putLine hfalse, hearlier, htext.openLine_eq]
    exact iniLines_newLine htext _ _
  have hbefore : iniLines text =
      earlierLines (utf8ToWchar key) (utf8ToWchar value) text ++
        iniLines (openLine newline text) := by
    rw [hearlier, htext.openLine_eq]
    exact htext.iniLines_eq
  have hothers {other : List UInt8} (hother : IsKey other) :
      readIniKeyStr other (writeIniKeyStr key value text).2 = readIniKeyStr other text ↔
        (firstData (utf8ToWchar other)
            (earlierLines (utf8ToWchar key) (utf8ToWchar value) text) = none →
          settingStr (firstData (utf8ToWchar other) (iniLines (openLine newline text ++
            newLine (utf8ToWchar key) (utf8ToWchar value)))) =
            settingStr (firstData (utf8ToWchar other)
              (iniLines (openLine newline text)))) := by
    rw [readIniKeyStr_eq hother, readIniKeyStr_eq hother, hwrite, heof, hbefore,
      firstData_append, firstData_append]
    exact settingStr_or
  rw [roundTrips_iff, readIniKeyStr_eq hkey, hwrite, firstData_append]
  constructor
  · rintro ⟨hwritten, hkept⟩
    refine ⟨fun data hdata => ?_, fun hfirst => ?_, fun other hother hsame => ?_⟩
    · rwa [Option.mem_def.mp hdata, Option.some_or] at hwritten
    · rwa [hfirst, Option.none_or] at hwritten
    · exact (hothers hother).mp (hkept other hother hsame)
  · rintro ⟨hshadow, hreads, hglued⟩
    refine ⟨?_, fun other hother hsame => ?_⟩
    · cases hfirst : firstData (utf8ToWchar key)
          (earlierLines (utf8ToWchar key) (utf8ToWchar value) text) with
      | none => rw [Option.none_or, hreads hfirst]
      | some data => rw [Option.some_or, hshadow data hfirst]
    · exact (hothers hother).mpr (hglued other hother hsame)

end

/-- Lines with nothing behind them that counts are as good as alone. -/
theorem firstData_flatMap {lines : List (List Wchar)}
    {behind : List Wchar → List (List Wchar)}
    (h : ∀ line ∈ lines, firstData token (behind line) = none) :
    firstData token (lines.flatMap fun line => line :: behind line) =
      firstData token lines := by
  induction lines with
  | nil => rfl
  | cons line lines ih =>
      have hrest := ih fun l hl => h l (List.mem_cons_of_mem line hl)
      rw [List.flatMap_cons, List.cons_append, firstData, List.findSome?_cons, firstData,
        List.findSome?_cons]
      cases getTokenDataLine token line with
      | some data => rfl
      | none =>
          show firstData token (behind line ++ _) = firstData token lines
          rw [firstData_append, h line List.mem_cons_self, Option.none_or, hrest]

theorem firstData_newline (htoken : IsToken token) {rest : List (List Wchar)}
    (h : rest = [] ∨ rest = [[newline]]) : firstData token rest = none := by
  rcases h with rfl | rfl
  · rfl
  · rw [firstData, List.findSome?_cons, getTokenDataLine_newline htoken]
    rfl

/-- A line that is written where it fits leaves nothing behind. -/
theorem firstData_behind {line : List Wchar} (hls : LinesOf text ls last)
    (htoken : IsToken token) (hdata : IsData data) (hline : line ∈ iniLines text)
    (hfits : (putLine token data line).length ≤ lineSize + 1)
    {other : List Wchar} (hother : IsToken other) :
    firstData other (iniLines (putLine token data line)).tail = none := by
  cases hset : setTokenDataLine token data line with
  | none =>
      rw [putLine, hset, Option.getD_none, hls.iniLines_line hline]
      rfl
  | some out =>
      obtain ⟨front, rest, hfront, rfl, rfl⟩ := setTokenDataLine_front hset
      have hmem := hfront.newline_not_mem htoken
      obtain ⟨m, tail, pieces, hlines, -, -, hshort, -⟩ :=
        iniLines_written hmem (hls.front_lt hline hmem) hdata
      rw [putLine, hset, Option.getD_some] at hfits ⊢
      have hlen : front.length + data.length ≤ lineSize := by
        rw [List.length_append, List.length_append, List.length_singleton] at hfits
        omega
      rw [hlines, List.tail_cons]
      exact firstData_newline hother (hshort hlen).2

/-- The line that is appended has a front as well. -/
theorem keyFront_newLine (token : List Wchar) : KeyFront token (token ++ [32, 61, 32]) :=
  ⟨[], token, [32], [32], by simp, rfl, by simp, by simp [isWspace], by simp [isWspace]⟩

theorem inPlace_of_fits (hls : LinesOf text ls last) (hkey : IsKey key)
    (hdata : IsData (utf8ToWchar value))
    (hfits : ∀ line ∈ iniLines text,
      (putLine (utf8ToWchar key) (utf8ToWchar value) line).length ≤ lineSize + 1) :
    InPlace text key value where
  fits _ line hfind := hfits line (List.mem_of_find?_eq_some hfind)
  spill other hother _ := by
    rw [firstData_flatMap fun line hline =>
      firstData_behind hls hkey hdata hline (hfits line hline) hother]

/-- Behind a line that is no more than an opening, the line that is appended is
read as it is, if it fits the buffer. -/
theorem atEnd_of_fits (hls : LinesOf text ls last) (hkey : IsKey key)
    (hvalue : IsValue value) (hne : value ≠ [])
    (hopen : skipOpening (openLine newline text) = [])
    (hroom : (openLine newline text).length + key.length + 3 + value.length ≤ lineSize) :
    AtEnd text key value := by
  have hdata := hvalue.isData hne
  rw [hls.openLine_eq] at hopen hroom
  have hfront := keyFront_newLine (utf8ToWchar key)
  have hmem : newline ∉ last ++ (utf8ToWchar key ++ [32, 61, 32]) := by
    rw [List.mem_append, not_or]
    exact ⟨hls.last_mem, hfront.newline_not_mem hkey⟩
  have hlen : (last ++ (utf8ToWchar key ++ [32, 61, 32])).length =
      last.length + key.length + 3 := by
    simp [utf8ToWchar, Nat.add_assoc]
  have hvlen : (utf8ToWchar value).length = value.length := List.length_map _
  have hpos : 0 < value.length := List.length_pos_of_ne_nil hne
  obtain ⟨m, tail, pieces, hlines, -, htail, hshort, -⟩ :=
    iniLines_written hmem (by omega) hdata
  obtain ⟨htake, hpieces⟩ := hshort (by omega)
  rw [htake] at hlines
  have hnew : iniLines (openLine newline text ++
      newLine (utf8ToWchar key) (utf8ToWchar value)) =
        (last ++ (utf8ToWchar key ++ [32, 61, 32] ++ (utf8ToWchar value ++ tail))) ::
          pieces := by
    rw [hls.openLine_eq, ← List.append_assoc last, ← hlines, newLine]
    simp only [List.append_assoc]
  have hold {other : List UInt8} (hother : IsKey other) :
      firstData (utf8ToWchar other) (iniLines (openLine newline text)) = none := by
    rw [hls.openLine_eq, hls.iniLines_last]
    split
    case isTrue => rfl
    case isFalse =>
      rw [firstData, List.findSome?_cons, getTokenDataLine_opening hother hopen]
      rfl
  constructor
  case reads =>
    intro _
    rw [hnew, firstData, List.findSome?_cons,
      getTokenDataLine_front hkey hfront hopen, lineData_of_isData hdata htail]
    exact hvalue.settingStr_eq
  case glued =>
    intro other hother hsame _
    rw [hnew, hold hother, firstData, List.findSome?_cons,
      getTokenDataLine_other hkey hfront hopen hother hsame]
    exact congrArg settingStr (firstData_newline hother hpieces)

/-- **In an ordinary file a write survives**: the value is not empty and has no
Ctrl-Z, the lines written fit the buffer, no earlier line hides them, and what
stands behind the last line break, if a line has to be appended there, is no more
than an opening. -/
theorem survives_of_fits (htext : IniText text) (hkey : IsKey key)
    (hvalue : IsValue value) (hne : value ≠ []) (hplain : ctrlZ ∉ utf8ToWchar value)
    (hshadow : firstData (utf8ToWchar key)
      (earlierLines (utf8ToWchar key) (utf8ToWchar value) text) = none)
    (hfits : ∀ line ∈ iniLines text,
      (putLine (utf8ToWchar key) (utf8ToWchar value) line).length ≤ lineSize + 1)
    (hend : ¬(iniLines text).any (isTaken (utf8ToWchar key) (utf8ToWchar value)) = true →
      skipOpening (openLine newline text) = [] ∧
        (openLine newline text).length + key.length + 3 + value.length ≤ lineSize) :
    Survives text key value := by
  obtain ⟨ls, last, hls⟩ := htext.exists_lines
  rw [Survives, if_neg hne, hshadow]
  refine ⟨hplain, fun data hfound => (nomatch hfound), ?_⟩
  split
  case isTrue => exact inPlace_of_fits hls hkey (hvalue.isData hne) hfits
  case isFalse hnone =>
    obtain ⟨hopen, hroom⟩ := hend hnone
    exact atEnd_of_fits hls hkey hvalue hne hopen hroom

def oneSetting (lineBreak : Bool) : List Wchar :=
  utf8ToWchar (Ascii.text "[Rufus]\nLocale = en") ++ if lineBreak then [newline] else []

theorem oneSetting_iniText (lineBreak : Bool) : IniText (oneSetting lineBreak) where
  noNul := by
    refine (List.all_iff_forall_prop (p := fun c => c ≠ 0)).mp ?_
    cases lineBreak with
    | false => decide
    | true => decide
  short line hline _ := by
    have hle := hline.length_le
    have hlen : (oneSetting lineBreak).length < lineSize := by
      cases lineBreak with
      | false => decide
      | true => decide
    omega

end

end Nawam
