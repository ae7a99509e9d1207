import Nawam.Base.Search
import Nawam.Parser.IniRoundTrip

/-!
# Replacing what stands behind a token

`replace_in_token_data` goes through a file line by line. In a line of the form
`[ ]token[ ]data` it cuts the data at each occurrence of a string, by a NUL in
the buffer, and puts the pieces out again with another string between them.
Two arrays hold where the pieces start and where they end. They are not cleared
from one line to the next; `findFragments_spec` says what the walk over them
comes to, whatever an earlier line has left there.
-/

namespace Nawam

/-! ## A string with the first occurrences of another one replaced -/

/-- From left to right, up to `n` occurrences, none of which overlap. -/
def replaceFirst {α : Type} [DecidableEq α] (src rep : List α) : ℕ → List α → List α
  | 0, s => s
  | n + 1, s =>
      match firstHit (src.isPrefixOf ·) s with
      | none => s
      | some k => s.take k ++ (rep ++ replaceFirst src rep n (s.drop (k + src.length)))

/-! ## `replace_in_token_data` -/

abbrev maxOccurrences : ℕ := 4

def wcsAt (buf : List Wchar) (i : ℕ) : List Wchar := (buf.drop i).takeWhile (· ≠ 0)

/-- `wcsstr(&buf[i], wsrc)` -/
def wcsstr (buf : List Wchar) (i : ℕ) (src : List Wchar) : Option ℕ :=
  (firstHit (src.isPrefixOf ·) (wcsAt buf i)).map (i + ·)

/-- The buffer, where its NULs have been put, and where the fragments start. -/
structure Fragments where
  buf : List Wchar
  torep : List (Option ℕ)
  p : List ℕ

/-- The loop over `j` that looks for the string, with so many turns left. -/
def findFragments (src : List Wchar) : ℕ → ℕ → ℕ → Fragments → Fragments
  | 0, _, _, s => s
  | left + 1, j, i, s =>
      match wcsstr s.buf i src with
      | none => { s with torep := s.torep.set j none }
      | some q =>
          let i := q + src.length
          findFragments src left (j + 1) i
            { buf := s.buf.set q 0, torep := s.torep.set j (some q), p := s.p.set (j + 1) i }

def putFragments (rep buf : List Wchar) (p : List ℕ) :
    List (Option ℕ) → ℕ → C (List Wchar)
  | [], _ => .error .outOfBounds
  | none :: _, j => do
      let start ← entry p j
      return wcsAt buf start
  | some _ :: torep, j => do
      let start ← entry p j
      let rest ← putFragments rep buf p torep (j + 1)
      return wcsAt buf start ++ (rep ++ rest)

/-- Where the data of a line start, behind the token and the blanks after it;
`none` if it is no line of the token. -/
def tokenData (token line : List Wchar) : Option (List Wchar) :=
  (skipToken token (skipSpaces line)).bind fun s =>
    if skipSpaces s = s then none else some (skipSpaces s)

/-- A line of `replace_in_token_data`: what is put out, whether something has
been replaced, and what the line leaves behind. -/
def replaceInLine (token src rep : List Wchar) (s : Fragments) (line : List Wchar) :
    C ((List Wchar × Bool) × Fragments) :=
  -- `fgetws` writes over the front of the buffer
  let s := { s with buf := line ++ 0 :: s.buf.drop (line.length + 1) }
  match tokenData token (wcsAt s.buf 0) with
  | none => return ((wcsAt s.buf 0, false), s)
  | some data => do
      let i := (wcsAt s.buf 0).length - data.length
      let s := findFragments src maxOccurrences 0 i { s with p := s.p.set 0 0 }
      match ← entry s.torep 0 with
      | none => return ((wcsAt s.buf 0, false), s)
      | some _ =>
          let out ← putFragments rep s.buf s.p s.torep 0
          return ((out, true), s)

def replaceInLines (token src rep : List Wchar) :
    Fragments → List (List Wchar) → C (List Wchar × Bool)
  | _, [] => return ([], false)
  | s, line :: lines => do
      let r ← replaceInLine token src rep s line
      let rest ← replaceInLines token src rep r.2 lines
      return (r.1.1 ++ rest.1, r.1.2 || rest.2)

/-- The loop of `replace_in_token_data` over a text: the new text, `none` if
nothing has been replaced. `fresh` is what the buffer holds at first. -/
def replaceInTokenData (token src rep fresh text : List Wchar) : C (Option (List Wchar)) := do
  let r ← replaceInLines token src rep
    ⟨fresh, List.replicate (maxOccurrences + 1) none, List.replicate (maxOccurrences + 1) 0⟩
    (iniLines text)
  return if r.2 then some r.1 else none

/-! ## What should come out -/

/-- A line with the first occurrences in its data replaced; `none` if there
are none, or if it is no line of the token. -/
def editLine (token src rep line : List Wchar) : Option (List Wchar) :=
  (tokenData token line).bind fun data =>
    if (firstHit (src.isPrefixOf ·) data).isSome then
      some (line.take (line.length - data.length)
        ++ replaceFirst src rep maxOccurrences data)
    else none

def outLine (token src rep line : List Wchar) : List Wchar :=
  (editLine token src rep line).getD line

/-- The lines of a text, the last one without a mark. -/
def textLines (text : List Wchar) : List (List Wchar) :=
  (cutLines newline text).1.map (· ++ [newline]) ++ [(cutLines newline text).2]

def editText (token src rep text : List Wchar) : List Wchar :=
  (textLines text).flatMap (outLine token src rep)

/-! ## The fragments of a line -/

theorem wcsAt_append {s rest : List Wchar} (pre : List Wchar) (hs : 0 ∉ s) :
    wcsAt (pre ++ (s ++ 0 :: rest)) pre.length = s := by
  rw [wcsAt, List.drop_left, List.takeWhile_append_of_pos]
  · simp
  · intro c hc
    simp only [ne_eq, decide_not, Bool.not_eq_eq_eq_not, Bool.not_true,
      decide_eq_false_iff_not]
    rintro rfl
    exact hs hc

/-- The arrays end with a NULL that no line puts there. -/
structure Fragments.Ready (s : Fragments) : Prop where
  torep : s.torep.length = maxOccurrences + 1
  last : s.torep[maxOccurrences]? = some none
  p : s.p.length = maxOccurrences + 1

/-- What the fragments in front of number `j` are made of stays. -/
structure Fragments.Keeps (j : ℕ) (pre : List Wchar) (s s' : Fragments) : Prop where
  torep : ∀ i < j, s'.torep[i]? = s.torep[i]?
  p : ∀ i ≤ j, s'.p[i]? = s.p[i]?
  buf : pre <+: s'.buf

theorem drop_of_getElem? {α : Type} {l : List α} {j : ℕ} {a : α} (h : l[j]? = some a) :
    l.drop j = a :: l.drop (j + 1) := by
  obtain ⟨hlt, hget⟩ := List.getElem?_eq_some_iff.mp h
  rw [List.drop_eq_getElem_cons hlt, hget]

theorem entry_of_getElem? {α : Type} {l : List α} {j : ℕ} {a : α} (h : l[j]? = some a) :
    entry l j = .ok a := by
  rw [entry, h]

theorem set_length_append {α : Type} (a : List α) (x y : α) (b : List α) :
    (a ++ x :: b).set a.length y = a ++ y :: b := by
  simp

theorem findFragments_none {src : List Wchar} {left j i : ℕ} {s : Fragments}
    (h : wcsstr s.buf i src = none) :
    findFragments src (left + 1) j i s = { s with torep := s.torep.set j none } := by
  rw [findFragments, h]

theorem findFragments_some {src : List Wchar} {left j i q : ℕ} {s : Fragments}
    (h : wcsstr s.buf i src = some q) :
    findFragments src (left + 1) j i s
      = findFragments src left (j + 1) (q + src.length)
          { buf := s.buf.set q 0
            torep := s.torep.set j (some q)
            p := s.p.set (j + 1) (q + src.length) } := by
  rw [findFragments, h]

/-- **From fragment `j` on** the pieces that are put out make up the string with
the first occurrences replaced. `lead` stands in front of what is searched. -/
theorem findFragments_spec {src : List Wchar} (hsrc : src ≠ []) (rep : List Wchar) :
    ∀ (left j : ℕ) (pre lead data stale : List Wchar) (s : Fragments),
      j + left = maxOccurrences → s.Ready → s.p[j]? = some pre.length →
      s.buf = pre ++ (lead ++ (data ++ 0 :: stale)) → 0 ∉ lead ++ data →
      ∃ s', findFragments src left j (pre.length + lead.length) s = s' ∧
        s'.Ready ∧ Fragments.Keeps j pre s s' ∧
        (0 < left → s'.torep[j]? =
          some ((firstHit (src.isPrefixOf ·) data).map (pre.length + lead.length + ·))) ∧
        putFragments rep s'.buf s'.p (s'.torep.drop j) j
          = .ok (lead ++ replaceFirst src rep left data)
  | 0, j, pre, lead, data, stale, s, hj, hready, hp, hbuf, hnul => by
      obtain rfl : j = maxOccurrences := hj
      have hwhole : wcsAt s.buf pre.length = lead ++ data := by
        rw [hbuf, ← List.append_assoc lead]
        exact wcsAt_append _ hnul
      refine ⟨s, rfl, hready, ⟨fun _ _ => rfl, fun _ _ => rfl, ⟨_, hbuf.symm⟩⟩,
        fun h => absurd h (Nat.lt_irrefl 0), ?_⟩
      rw [drop_of_getElem? hready.last, putFragments, entry_of_getElem? hp, C.ok_bind, hwhole]
      rfl
  | left + 1, j, pre, lead, data, stale, s, hj, hready, hp, hbuf, hnul => by
      have hjlt : j < s.torep.length := by
        rw [hready.torep]
        omega
      have hdata : wcsAt s.buf (pre.length + lead.length) = data := by
        rw [hbuf, ← List.append_assoc, ← List.length_append]
        exact wcsAt_append _ fun h => hnul (List.mem_append_right _ h)
      have hset : ∀ x, (s.torep.set j x).length = maxOccurrences + 1 ∧
          (s.torep.set j x)[maxOccurrences]? = some none := by
        intro x
        rw [List.length_set, List.getElem?_set_ne (by omega)]
        exact ⟨hready.torep, hready.last⟩
      cases hhit : firstHit (src.isPrefixOf ·) data with
      | none =>
          have hfind : wcsstr s.buf (pre.length + lead.length) src = none := by
            rw [wcsstr, hdata, hhit]
            rfl
          have hwhole : wcsAt s.buf pre.length = lead ++ data := by
            rw [hbuf, ← List.append_assoc lead]
            exact wcsAt_append _ hnul
          have hnone : (s.torep.set j none)[j]? = some none := List.getElem?_set_self hjlt
          refine ⟨_, findFragments_none hfind, ⟨(hset none).1, (hset none).2, hready.p⟩,
            ⟨fun i hi => List.getElem?_set_ne (Nat.ne_of_gt hi), fun _ _ => rfl,
              ⟨_, hbuf.symm⟩⟩, fun _ => hnone, ?_⟩
          dsimp only
          rw [drop_of_getElem? hnone, putFragments, entry_of_getElem? hp, C.ok_bind, hwhole,
            replaceFirst, hhit]
          rfl
      | some k =>
          have hfind : wcsstr s.buf (pre.length + lead.length) src
              = some (pre.length + lead.length + k) := by
            rw [wcsstr, hdata, hhit]
            rfl
          have hocc : Occurs src data k :=
            List.isPrefixOf_iff_prefix.mp (firstHit_some hhit).holds
          have hsplit := hocc.split
          have hk : (data.take k).length = k := by
            have := hocc.le_length hsrc
            rw [List.length_take]
            omega
          -- what is in front of the next fragment, with the NUL that ends this one
          obtain ⟨pre', hpre'⟩ : ∃ pre', pre' =
              pre ++ ((lead ++ data.take k) ++ 0 :: src.tail) := ⟨_, rfl⟩
          have hlen : pre'.length = pre.length + lead.length + k + src.length := by
            have hpos := List.length_pos_iff.mpr hsrc
            simp only [hpre', List.length_append, List.length_cons, List.length_tail, hk]
            omega
          have hbuf' : s.buf.set (pre.length + lead.length + k) 0
              = pre' ++ ([] ++ (data.drop (k + src.length) ++ 0 :: stale)) := by
            have hcut : s.buf = (pre ++ (lead ++ data.take k)) ++
                src.head hsrc :: (src.tail ++ (data.drop (k + src.length) ++ 0 :: stale)) := by
              rw [← List.cons_append, List.cons_head_tail, hbuf]
              nth_rewrite 1 [hsplit]
              simp only [List.append_assoc]
            have hat : pre.length + lead.length + k
                = (pre ++ (lead ++ data.take k)).length := by
              rw [List.length_append, List.length_append, hk, Nat.add_assoc]
            rw [hcut, hat, set_length_append, hpre']
            simp only [List.append_assoc, List.cons_append, List.nil_append]
          have hnul' : 0 ∉ [] ++ data.drop (k + src.length) := fun h =>
            hnul (List.mem_append_right _ (List.mem_of_mem_drop h))
          have hp' : (s.p.set (j + 1) (pre.length + lead.length + k + src.length))[j + 1]?
              = some pre'.length := by
            rw [hlen, List.getElem?_set_self]
            rw [hready.p]
            omega
          have hpset : (s.p.set (j + 1) (pre.length + lead.length + k + src.length)).length
              = maxOccurrences + 1 := by
            rw [List.length_set]
            exact hready.p
          obtain ⟨s', hrun, hready', hkeeps, -, hput⟩ := findFragments_spec hsrc rep left (j + 1)
            pre' [] (data.drop (k + src.length)) stale
            ⟨_, s.torep.set j (some (pre.length + lead.length + k)), _⟩
            (by omega) ⟨(hset _).1, (hset _).2, hpset⟩ hp' hbuf' hnul'
          rw [List.length_nil, Nat.add_zero, hlen] at hrun
          have hentry : s'.torep[j]? = some (some (pre.length + lead.length + k)) := by
            rw [hkeeps.torep j (Nat.lt_succ_self j)]
            exact List.getElem?_set_self hjlt
          have hstart : s'.p[j]? = some pre.length := by
            rw [hkeeps.p j (Nat.le_succ j), List.getElem?_set_ne (Nat.succ_ne_self j), hp]
          have hpiece : wcsAt s'.buf pre.length = lead ++ data.take k := by
            obtain ⟨behind, hbehind⟩ := hkeeps.buf
            rw [← hbehind, hpre', List.append_assoc, List.append_assoc, List.cons_append]
            refine wcsAt_append _ fun h => hnul ?_
            rcases List.mem_append.mp h with hlead | htake
            · exact List.mem_append_left _ hlead
            · exact List.mem_append_right _ (List.mem_of_mem_take htake)
          refine ⟨s', (findFragments_some hfind).trans hrun, hready', ⟨?_, ?_, ?_⟩,
            fun _ => hentry, ?_⟩
          · intro i hi
            rw [hkeeps.torep i (Nat.lt_succ_of_lt hi)]
            exact List.getElem?_set_ne (Nat.ne_of_gt hi)
          · intro i hi
            rw [hkeeps.p i (Nat.le_succ_of_le hi)]
            exact List.getElem?_set_ne (by omega)
          · exact (hpre' ▸ List.prefix_append _ _ : pre <+: pre').trans hkeeps.buf
          · rw [drop_of_getElem? hentry, putFragments, entry_of_getElem? hstart, C.ok_bind, hput,
              C.ok_bind, hpiece, replaceFirst, hhit]
            simp only [C.pure_eq, List.nil_append, List.append_assoc]

/-! ## Lines -/

theorem tokenData_append {token line data : List Wchar} (h : tokenData token line = some data) :
    ∃ front, line = front ++ data := by
  obtain ⟨s, hs, h⟩ := Option.bind_eq_some_iff.mp h
  split at h
  case isTrue => cases h
  case isFalse =>
    cases h
    obtain ⟨spaces, hline, -⟩ := exists_skipSpaces line
    obtain ⟨token', htoken, -⟩ := exists_of_skipToken hs
    obtain ⟨spaces', hrest, -⟩ := exists_skipSpaces s
    refine ⟨spaces ++ token' ++ spaces', ?_⟩
    rw [List.append_assoc, List.append_assoc, ← hrest, ← htoken]
    exact hline

/-- A line of any content: the string in it is edited, or put out as it is. -/
theorem replaceInLine_spec {src : List Wchar} (hsrc : src ≠ []) (token rep : List Wchar)
    {s : Fragments} (hready : s.Ready) (line : List Wchar) :
    ∃ s', s'.Ready ∧ replaceInLine token src rep s line
      = .ok (((editLine token src rep (line.takeWhile (· ≠ 0))).getD
          (line.takeWhile (· ≠ 0)),
        (editLine token src rep (line.takeWhile (· ≠ 0))).isSome), s') := by
  obtain ⟨text, htext⟩ : ∃ text, line.takeWhile (· ≠ 0) = text := ⟨_, rfl⟩
  have hnul : 0 ∉ text := by
    intro h
    rw [← htext] at h
    simpa using List.mem_takeWhile_imp h
  -- the string ends at its own NUL or at the one behind the line
  obtain ⟨stale, hbuf⟩ : ∃ stale,
      line ++ 0 :: s.buf.drop (line.length + 1) = text ++ 0 :: stale := by
    have hline : text ++ line.dropWhile (· ≠ 0) = line := by
      rw [← htext]
      exact List.takeWhile_append_dropWhile
    cases hrest : line.dropWhile (· ≠ 0) with
    | nil =>
        rw [hrest, List.append_nil] at hline
        exact ⟨_, by rw [hline]⟩
    | cons c rest =>
        have hc : c = 0 := by
          have hne : line.dropWhile (· ≠ 0) ≠ [] := by simp only [hrest]; exact List.cons_ne_nil _ _
          have hhead := List.head_dropWhile_not _ hne
          simp only [hrest, List.head_cons] at hhead
          simpa using hhead
        rw [hrest, hc] at hline
        refine ⟨rest ++ 0 :: s.buf.drop (line.length + 1), ?_⟩
        nth_rewrite 1 [← hline]
        rw [List.append_assoc, List.cons_append]
  have hstr : wcsAt (text ++ 0 :: stale) 0 = text := wcsAt_append [] hnul
  rw [replaceInLine, htext]
  simp only [hbuf, hstr]
  cases hdata : tokenData token text with
  | none =>
      refine ⟨⟨text ++ 0 :: stale, s.torep, s.p⟩, ⟨hready.torep, hready.last, hready.p⟩, ?_⟩
      rw [editLine, hdata]
      rfl
  | some data =>
      obtain ⟨front, rfl⟩ := tokenData_append hdata
      have hpos : (front ++ data).length - data.length = front.length := by
        rw [List.length_append, Nat.add_sub_cancel]
      have hpset : (s.p.set 0 0).length = maxOccurrences + 1 := by
        rw [List.length_set]
        exact hready.p
      have hp0 : (s.p.set 0 0)[0]? = some ([] : List Wchar).length :=
        List.getElem?_set_self (by rw [hready.p]; exact Nat.succ_pos _)
      obtain ⟨s', hrun, hready', hkeeps, hfirst, hput⟩ := findFragments_spec hsrc rep
        maxOccurrences 0 [] front data stale ⟨front ++ data ++ 0 :: stale, s.torep, s.p.set 0 0⟩
        rfl ⟨hready.torep, hready.last, hpset⟩ hp0 (List.append_assoc ..) hnul
      rw [List.length_nil, Nat.zero_add] at hrun
      refine ⟨s', hready', ?_⟩
      have hentry := hfirst (by decide)
      rw [editLine, hdata, Option.bind_some, hpos, List.take_left]
      dsimp only
      rw [hpos, hrun, entry_of_getElem? hentry, C.ok_bind]
      cases hhit : firstHit (src.isPrefixOf ·) data with
      | none =>
          -- nothing is cut off, so the line is still whole
          have hzero : s'.p[0]? = some 0 := (hkeeps.p 0 le_rfl).trans hp0
          rw [hhit] at hentry
          rw [drop_of_getElem? hentry, Option.map_none, putFragments,
            entry_of_getElem? hzero, replaceFirst, hhit] at hput
          have hwhole : wcsAt s'.buf 0 = front ++ data := by simpa using hput
          rw [Option.map_none, hwhole]
          rfl
      | some k =>
          rw [List.drop_zero] at hput
          simp only [Option.map_some, hput]
          rfl

/-- **Over any lines** the loop comes to an end and puts out each of them, edited
or as it is. -/
theorem replaceInLines_spec {token src : List Wchar} (hsrc : src ≠ []) (rep : List Wchar) :
    ∀ {lines : List (List Wchar)} {s : Fragments}, s.Ready →
      replaceInLines token src rep s lines
        = .ok (lines.flatMap fun line => outLine token src rep (line.takeWhile (· ≠ 0)),
          lines.any fun line => (editLine token src rep (line.takeWhile (· ≠ 0))).isSome)
  | [], _, _ => rfl
  | line :: lines, s, hready => by
      obtain ⟨s', hready', hline⟩ := replaceInLine_spec hsrc token rep hready line
      rw [replaceInLines, hline, C.ok_bind, replaceInLines_spec hsrc rep hready', C.ok_bind,
        List.flatMap_cons, List.any_cons, outLine]
      rfl

theorem replaceInTokenData_eq {token src : List Wchar} (hsrc : src ≠ [])
    (rep fresh text : List Wchar) :
    replaceInTokenData token src rep fresh text
      = .ok (if (iniLines text).any
            fun line => (editLine token src rep (line.takeWhile (· ≠ 0))).isSome then
          some ((iniLines text).flatMap
            fun line => outLine token src rep (line.takeWhile (· ≠ 0)))
        else none) := by
  have hready : (⟨fresh, List.replicate (maxOccurrences + 1) none,
      List.replicate (maxOccurrences + 1) 0⟩ : Fragments).Ready := ⟨rfl, rfl, rfl⟩
  rw [replaceInTokenData, replaceInLines_spec hsrc rep hready, C.ok_bind, C.pure_eq]

theorem editLine_nil {token : List Wchar} (htoken : token ≠ []) (src rep : List Wchar) :
    editLine token src rep [] = none := by
  have hskip : skipToken token (skipSpaces []) = none := by
    refine if_neg fun heq => htoken ?_
    simpa [skipSpaces] using heq.symm
  rw [editLine, tokenData, hskip]
  rfl

/-- The lines of a text are what the loop reads, but for an empty last one. -/
theorem iniLines_textLines {text : List Wchar} (htext : IniText text) :
    textLines text = iniLines text ∨ textLines text = iniLines text ++ [[]] := by
  obtain ⟨ls, last, hlines⟩ := htext.exists_lines
  have hcut : cutLines newline text = (ls, last) := by
    rw [hlines.text_eq]
    exact cutLines_unlines hlines.last_mem fun l hl => (hlines.line l hl).1
  rw [textLines, hcut, hlines.iniLines_eq, hlines.iniLines_last]
  by_cases hlast : last = []
  · right
    rw [if_pos hlast, hlast, List.append_nil]
  · left
    rw [if_neg hlast]

theorem textLines_flatten (text : List Wchar) : (textLines text).flatten = text := by
  obtain ⟨ls, last, rfl, hls, hlast⟩ := exists_unlines newline text
  rw [textLines, cutLines_unlines hlast hls, List.flatten_append]
  simp [unlines]

theorem mem_of_mem_textLines {text line : List Wchar} {c : Wchar} (hline : line ∈ textLines text)
    (hc : c ∈ line) : c ∈ text := by
  rw [← textLines_flatten text]
  exact List.mem_flatten.mpr ⟨line, hline, hc⟩

/-- **A text of short lines** is edited line by line. -/
theorem replaceInTokenData_text {token src text : List Wchar} (htext : IniText text)
    (htoken : token ≠ []) (hsrc : src ≠ []) (rep fresh : List Wchar) :
    replaceInTokenData token src rep fresh text
      = .ok (if (textLines text).any fun line => (editLine token src rep line).isSome then
          some (editText token src rep text) else none) := by
  have hnone := editLine_nil htoken src rep
  have hwhole : (iniLines text).map (·.takeWhile (· ≠ 0)) = iniLines text := by
    refine (List.map_congr_left fun line hline => ?_).trans (List.map_id _)
    rw [id_eq, List.takeWhile_eq_self_iff]
    intro c hc
    have hmem : line ∈ textLines text := by
      rcases iniLines_textLines htext with heq | heq
      · rwa [heq]
      · rw [heq]
        exact List.mem_append_left _ hline
    exact decide_eq_true (htext.noNul c (mem_of_mem_textLines hmem hc))
  have hany : (iniLines text).any (fun line =>
        (editLine token src rep (line.takeWhile (· ≠ 0))).isSome)
      = (textLines text).any fun line => (editLine token src rep line).isSome := by
    calc _ = ((iniLines text).map (·.takeWhile (· ≠ 0))).any
              fun line => (editLine token src rep line).isSome := List.any_map.symm
      _ = (iniLines text).any fun line => (editLine token src rep line).isSome := by
          rw [hwhole]
      _ = _ := by
          rcases iniLines_textLines htext with heq | heq
          · rw [heq]
          · rw [heq, List.any_append]
            simp [hnone]
  have hflat : (iniLines text).flatMap (fun line =>
        outLine token src rep (line.takeWhile (· ≠ 0)))
      = editText token src rep text := by
    calc _ = ((iniLines text).map (·.takeWhile (· ≠ 0))).flatMap
              (outLine token src rep) := (List.flatMap_map ..).symm
      _ = (iniLines text).flatMap (outLine token src rep) := by rw [hwhole]
      _ = (textLines text).flatMap (outLine token src rep) := by
          rcases iniLines_textLines htext with heq | heq
          · rw [heq]
          · rw [heq, List.flatMap_append]
            simp [outLine, hnone]
      _ = editText token src rep text := rfl
  rw [replaceInTokenData_eq hsrc, hany, hflat]

end Nawam
