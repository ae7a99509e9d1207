import Mathlib.Data.List.Infix
import Nawam.Base.Chunks
import Nawam.Base.Search
import Nawam.Hash.Streaming
import Nawam.Parser.Thumbprint

/-!
# Updating the sums of md5sum.txt

The first loop of `UpdateMD5Sum` of `hash.c`. For every file that was modified
when the image was written it looks for the path in the list, goes back to the
beginning of the line, and puts the new sum there.

What it looks for is `"/path"`, anywhere: the first line in which the path
occurs is taken, be it the line of the file or one whose path only contains it
(`Md5Line.Contains`). So it goes right where each modified path occurs in its
own line first.
-/

namespace Nawam

open Ascii

/-! ## Source -/

/-- `if (modified_files.String[i][j] == '\\') modified_files.String[i][j] = '/';` -/
def unixPath (name : List UInt8) : List UInt8 :=
  name.map fun c => if c = backslash then 47 else c

/-- `while ((pos > 0) && (md5_data[pos - 1] != '\n')) pos--;` -/
def lineStart (mem : List UInt8) : ℕ → C ℕ
  | 0 => return 0
  | pos + 1 => do
      let c ← load mem pos
      if c ≠ lf then lineStart mem pos else return pos + 1

/-- A digit as the loop writes it -/
def sumDigit (n : UInt8) : UInt8 := if n < 10 then 48 + n else 97 - 0xa + n

def sumDigits (b : UInt8) : List UInt8 := [sumDigit (b >>> 4), sumDigit (b &&& 15)]

section

variable (content : List UInt8 → List UInt8)

/-- `HashFile(HASH_MD5, name, sum)` for a file that can be read. -/
def fileSum (name : List UInt8) : List UInt8 := HashType.md5.digest (content name)

/-- A turn of the loop, for the file `modified_files.String[i]`. -/
def updateSum (md5_data name : List UInt8) : C (List UInt8) := do
  let name := unixPath name
  if name.length < 2 then .error .outOfBounds
  else
    let str_pos ← strstrFrom (name.drop 2) md5_data 0
    match str_pos with
    | none => return md5_data
    | some p => do
        let sum := fileSum content name
        let pos ← lineStart md5_data p
        let c ← load md5_data pos
        assertThat (isHexascii c)
        copyInto md5_data pos (sum.flatMap sumDigits)

/-- The loop over `modified_files` -/
def updateSums (md5_data : List UInt8) (modified_files : List (List UInt8)) :
    C (List UInt8) :=
  modified_files.foldlM (updateSum content) md5_data

end

/-! ## The list and the files -/

/-- A line of the list: `"<32 hex digits>  ./path"` -/
structure Md5Line where
  digits : List UInt8
  path : List UInt8
  digits_length : digits.length = 32
  digits_hex : ∀ c ∈ digits, isHexascii c = true
  no_break : lf ∉ path
  no_nul : nul ∉ path

namespace Md5Line

@[ext] theorem ext {l l' : Md5Line} (hdigits : l.digits = l'.digits)
    (hpath : l.path = l'.path) : l = l' := by
  cases l
  cases l'
  cases hdigits
  cases hpath
  rfl

def text (l : Md5Line) : List UInt8 := l.digits ++ ([space, space, dot] ++ 47 :: l.path)

end Md5Line

/-- The text of the list. The last line may have a line feed behind it or not. -/
def md5Text (closed : Bool) : List Md5Line → List UInt8
  | [] => []
  | [l] => l.text ++ (if closed then [lf] else [])
  | l :: l' :: ls => l.text ++ lf :: md5Text closed (l' :: ls)

/-- A modified file: what is behind the drive letter in its name, with slashes
or backslashes. -/
structure ModifiedFile where
  path : List UInt8
  root : (unixPath path).head? = some 47
  no_break : lf ∉ unixPath path
  no_nul : nul ∉ unixPath path

namespace ModifiedFile

variable (drive : UInt8) (f : ModifiedFile)

/-- The name in `modified_files` -/
def name : List UInt8 := drive :: colon :: f.path

/-- `"/path"` -/
def needle : List UInt8 := unixPath f.path

end ModifiedFile

namespace Md5Line

variable (l : Md5Line) (f : ModifiedFile)

/-- The line has exactly the path of the file. -/
def Names : Prop := f.needle = 47 :: l.path

/-- The path of the file occurs in that of the line. -/
def Contains : Prop := f.needle <:+: 47 :: l.path

instance : Decidable (l.Names f) := inferInstanceAs (Decidable (_ = _))

instance : Decidable (l.Contains f) := inferInstanceAs (Decidable (_ <:+: _))

end Md5Line

/-! ## The sums -/

theorem isHexascii_sumDigit : ∀ n < (16 : UInt8), isHexascii (sumDigit n) = true := by
  refine forall_byte ?_
  decide +kernel

theorem isHexascii_sumDigits (b : UInt8) : ∀ c ∈ sumDigits b, isHexascii c = true := by
  have hhigh : ∀ b : UInt8, b >>> 4 < 16 := forall_byte (by decide +kernel)
  have hlow : ∀ b : UInt8, b &&& 15 < 16 := forall_byte (by decide +kernel)
  intro c hc
  simp only [sumDigits, List.mem_cons, List.not_mem_nil, or_false] at hc
  rcases hc with rfl | rfl
  · exact isHexascii_sumDigit _ (hhigh b)
  · exact isHexascii_sumDigit _ (hlow b)

section

variable (content : List UInt8 → List UInt8) (drive : UInt8)

def ModifiedFile.sumText (f : ModifiedFile) : List UInt8 :=
  (fileSum content (unixPath (f.name drive))).flatMap sumDigits

theorem ModifiedFile.sumText_length (f : ModifiedFile) :
    (f.sumText content drive).length = 32 := by
  have hpairs : ∀ bytes : List UInt8, (bytes.flatMap sumDigits).length = 2 * bytes.length := by
    intro bytes
    induction bytes with
    | nil => rfl
    | cons b bytes ih =>
        rw [List.flatMap_cons, List.length_append, ih, List.length_cons]
        simp only [sumDigits, List.length_cons, List.length_nil]
        omega
  rw [sumText, hpairs, fileSum, HashType.digest, HashType.output_length]
  rfl

def Md5Line.stamp (l : Md5Line) (f : ModifiedFile) : Md5Line where
  digits := f.sumText content drive
  path := l.path
  digits_length := f.sumText_length content drive
  digits_hex c hc := by
    obtain ⟨b, -, hc⟩ := List.mem_flatMap.mp hc
    exact isHexascii_sumDigits b c hc
  no_break := l.no_break
  no_nul := l.no_nul

/-- What is due in a line: the sum of the file that it names, if that was
modified. -/
def Md5Line.due (files : List ModifiedFile) (l : Md5Line) : Md5Line :=
  match files.find? fun f => l.Names f with
  | some f => l.stamp content drive f
  | none => l

/-- A turn of the loop, line by line -/
def stampFirst (f : ModifiedFile) : List Md5Line → List Md5Line
  | [] => []
  | l :: ls => if l.Contains f then l.stamp content drive f :: ls else l :: stampFirst f ls

end

/-! ## The search in the text -/

namespace ModifiedFile

theorem needle_eq (f : ModifiedFile) : ∃ rest, f.needle = 47 :: rest := by
  have hroot : f.needle.head? = some 47 := f.root
  cases hneedle : f.needle with
  | nil => simp [hneedle] at hroot
  | cons c rest =>
      rw [hneedle] at hroot
      cases hroot
      exact ⟨rest, rfl⟩

theorem unixPath_name (drive : UInt8) (f : ModifiedFile) : unixPath (f.name drive)
    = (if drive = backslash then 47 else drive) :: colon :: f.needle := rfl

end ModifiedFile

theorem not_hit_cons {f : ModifiedFile} {c : UInt8} (hc : c ≠ 47) (s : List UInt8) :
    ¬f.needle.isPrefixOf (c :: s) = true := by
  obtain ⟨rest, hneedle⟩ := f.needle_eq
  rw [hneedle, List.isPrefixOf_iff_prefix, List.cons_prefix_cons]
  exact fun h => hc h.1.symm

theorem Md5Line.text_length (l : Md5Line) : l.text.length = 36 + l.path.length := by
  simp only [Md5Line.text, List.length_append, List.length_cons, List.length_nil,
    l.digits_length]
  omega

theorem not_break_of_isHexascii : ∀ c : UInt8, isHexascii c = true →
    c ≠ lf ∧ c ≠ nul ∧ c ≠ 47 :=
  forall_byte (by decide +kernel)

theorem Md5Line.text_no_break (l : Md5Line) : lf ∉ l.text ∧ nul ∉ l.text := by
  have hdigits : lf ∉ l.digits ∧ nul ∉ l.digits :=
    ⟨fun h => (not_break_of_isHexascii _ (l.digits_hex _ h)).1 rfl,
      fun h => (not_break_of_isHexascii _ (l.digits_hex _ h)).2.1 rfl⟩
  simp [Md5Line.text, hdigits, l.no_break, l.no_nul]

section Search

variable {f : ModifiedFile} {l : Md5Line} {tail : List UInt8}

/-- Where the path of the file begins in a line, the line contains it. -/
theorem contains_of_hit (htail : ∀ c ∈ tail.head?, c ∉ f.needle) {i : ℕ}
    (hhit : f.needle.isPrefixOf (l.text.drop i ++ tail) = true) : l.Contains f := by
  obtain ⟨rest, hneedle⟩ := f.needle_eq
  have hpre := prefix_of_prefix_append htail (List.isPrefixOf_iff_prefix.mp hhit)
  -- it does not begin with one of the digits, nor with what is behind them
  have hfront : ∀ c ∈ l.digits ++ [space, space, dot], c ≠ 47 := by
    intro c hc
    rcases List.mem_append.mp hc with hc | hc
    · exact (not_break_of_isHexascii c (l.digits_hex c hc)).2.2
    · simp only [List.mem_cons, List.not_mem_nil, or_false] at hc
      rcases hc with rfl | rfl | rfl <;> decide
  have htext : l.text = (l.digits ++ [space, space, dot]) ++ 47 :: l.path :=
    (List.append_assoc ..).symm
  have hlen : (l.digits ++ [space, space, dot]).length = 35 := by
    rw [List.length_append, l.digits_length]
    rfl
  rcases Nat.lt_or_ge i 35 with hlt | hge
  · rw [htext, List.drop_append_of_le_length (by omega),
      List.drop_eq_getElem_cons (by omega), hneedle, List.cons_append,
      List.cons_prefix_cons] at hpre
    exact absurd hpre.1.symm (hfront _ (List.getElem_mem _))
  · rw [htext, ← Nat.sub_add_cancel hge, Nat.add_comm, ← List.drop_drop,
      List.drop_left' hlen] at hpre
    exact hpre.isInfix.trans (List.drop_suffix ..).isInfix

theorem firstHit_line_none (htail : ∀ c ∈ tail.head?, c ∉ f.needle)
    (hnot : ¬l.Contains f) : firstHit (f.needle.isPrefixOf ·) (l.text ++ tail)
      = (firstHit (f.needle.isPrefixOf ·) tail).map (l.text.length + ·) :=
  firstHit_append tail fun _ _ hhit => hnot (contains_of_hit htail hhit)

theorem firstHit_line_some (hcontains : l.Contains f) (tail : List UInt8) :
    ∃ j ≤ l.text.length, firstHit (f.needle.isPrefixOf ·) (l.text ++ tail) = some j := by
  obtain ⟨a, b, hab⟩ := hcontains
  have hhit : f.needle.isPrefixOf
      ((l.text ++ tail).drop ((l.digits ++ [space, space, dot]) ++ a).length) = true := by
    have htext : l.text ++ tail
        = ((l.digits ++ [space, space, dot]) ++ a) ++ (f.needle ++ (b ++ tail)) := by
      rw [Md5Line.text, ← hab]
      simp only [List.append_assoc]
    rw [htext, List.drop_left, List.isPrefixOf_iff_prefix]
    exact List.prefix_append ..
  have hle : ((l.digits ++ [space, space, dot]) ++ a).length ≤ l.text.length := by
    rw [Md5Line.text, ← hab]
    simp only [List.length_append]
    omega
  cases hfirst : firstHit (f.needle.isPrefixOf ·) (l.text ++ tail) with
  | none => exact absurd hhit (firstHit_none hfirst _)
  | some j =>
      refine ⟨j, ?_, rfl⟩
      by_contra hlt
      exact (firstHit_some hfirst).before _ (Nat.zero_le _) (by omega) hhit

end Search

/-! ## The text -/

def md5Rest (closed : Bool) : List Md5Line → List UInt8
  | [] => if closed then [lf] else []
  | ls => lf :: md5Text closed ls

theorem md5Text_cons (closed : Bool) (l : Md5Line) (ls : List Md5Line) :
    md5Text closed (l :: ls) = l.text ++ md5Rest closed ls := by
  cases ls <;> rfl

theorem md5Rest_head (closed : Bool) (ls : List Md5Line) (f : ModifiedFile) :
    ∀ c ∈ (md5Rest closed ls).head?, c ∉ f.needle := by
  have hlf : ∀ c ∈ (md5Rest closed ls).head?, c = lf := by
    intro c hc
    cases ls with
    | nil => cases closed <;> simp_all [md5Rest]
    | cons l ls => simp_all [md5Rest]
  intro c hc
  rw [hlf c hc]
  exact f.no_break

theorem md5Text_no_nul (closed : Bool) : ∀ ls : List Md5Line, nul ∉ md5Text closed ls
  | [] => List.not_mem_nil
  | l :: ls => by
      have ih := md5Text_no_nul closed ls
      rw [md5Text_cons, List.mem_append, not_or]
      refine ⟨l.text_no_break.2, ?_⟩
      cases ls with
      | nil => cases closed <;> simp [md5Rest]
      | cons l ls => simpa [md5Rest] using ih

/-- The lines in front of one, and what is behind it -/
theorem md5Text_split (closed : Bool) (l : Md5Line) (after : List Md5Line) :
    ∀ before : List Md5Line, md5Text closed (before ++ l :: after)
      = unlines lf (before.map (·.text)) ++ (l.text ++ md5Rest closed after)
  | [] => md5Text_cons closed l after
  | b :: before => by
      have ih := md5Text_split closed l after before
      have hrest : md5Rest closed (before ++ l :: after)
          = lf :: md5Text closed (before ++ l :: after) := by
        cases before <;> rfl
      rw [List.cons_append, md5Text_cons, hrest, ih, List.map_cons, unlines_cons,
        List.append_assoc, List.cons_append]

theorem firstHit_rest (f : ModifiedFile) (closed : Bool) (ls : List Md5Line) :
    firstHit (f.needle.isPrefixOf ·) (md5Rest closed ls)
      = (firstHit (f.needle.isPrefixOf ·) (md5Text closed ls)).map (· + 1) := by
  have hlf (s : List UInt8) : firstHit (f.needle.isPrefixOf ·) (lf :: s)
      = (firstHit (f.needle.isPrefixOf ·) s).map (· + 1) := by
    rw [firstHit, if_neg (not_hit_cons (by decide) s)]
  have hnil : firstHit (f.needle.isPrefixOf ·) [] = none := by
    obtain ⟨rest, hneedle⟩ := f.needle_eq
    rw [firstHit, hneedle]
    rfl
  cases ls with
  | nil =>
      cases closed with
      | false => rw [md5Text, hnil]; exact hnil
      | true => exact hlf []
  | cons l ls => exact hlf _

/-- The path of a file occurs in no line. -/
theorem firstHit_text_none (f : ModifiedFile) (closed : Bool) :
    ∀ ls : List Md5Line, (∀ l ∈ ls, ¬l.Contains f) →
      firstHit (f.needle.isPrefixOf ·) (md5Text closed ls) = none
  | [], _ => by
      obtain ⟨rest, hneedle⟩ := f.needle_eq
      rw [md5Text, firstHit, hneedle]
      rfl
  | l :: ls, h => by
      have ih := firstHit_text_none f closed ls fun l' hl' => h l' (List.mem_cons_of_mem l hl')
      rw [md5Text_cons, firstHit_line_none (md5Rest_head closed ls f)
        (h l List.mem_cons_self), firstHit_rest, ih]
      rfl

/-- It occurs in a line, and in none before. -/
theorem firstHit_text_some {f : ModifiedFile} (closed : Bool) {l : Md5Line}
    (hcontains : l.Contains f) (after : List Md5Line) :
    ∀ before : List Md5Line, (∀ l ∈ before, ¬l.Contains f) →
      ∃ j ≤ l.text.length,
        firstHit (f.needle.isPrefixOf ·) (md5Text closed (before ++ l :: after))
          = some ((unlines lf (before.map (·.text))).length + j)
  | [], _ => by
      obtain ⟨j, hj, hfirst⟩ := firstHit_line_some hcontains (md5Rest closed after)
      refine ⟨j, hj, ?_⟩
      rw [List.nil_append, md5Text_cons, hfirst]
      simp [unlines]
  | b :: before, h => by
      obtain ⟨j, hj, hfirst⟩ := firstHit_text_some closed hcontains after before
        fun l' hl' => h l' (List.mem_cons_of_mem b hl')
      refine ⟨j, hj, ?_⟩
      rw [List.cons_append, md5Text_cons, firstHit_line_none (md5Rest_head closed _ f)
        (h b List.mem_cons_self), firstHit_rest, hfirst]
      simp only [Option.map_some, List.map_cons, unlines_cons, List.length_append,
        List.length_cons]
      congr 1
      omega

theorem lineStart_line {front w : List UInt8} (hfront : ∀ c ∈ front.getLast?, c = lf)
    (hw : lf ∉ w) (rest : List UInt8) : ∀ j ≤ w.length,
    lineStart (front ++ (w ++ rest)) (front.length + j) = .ok front.length
  | 0, _ => by
      cases front using List.reverseRecOn with
      | nil => rfl
      | append_singleton front c =>
          obtain rfl : c = lf := hfront c (by simp)
          have hload : load (front ++ [lf] ++ (w ++ rest)) front.length = .ok lf := by
            rw [load_of_lt (by simp)]
            simp
          rw [Nat.add_zero, List.length_append, List.length_singleton, lineStart, hload]
          rfl
  | j + 1, hj => by
      have hlt : front.length + j < (front ++ (w ++ rest)).length := by
        simp only [List.length_append]
        omega
      have hc : (front ++ (w ++ rest))[front.length + j] ≠ lf := by
        rw [List.getElem_append_right (by omega), List.getElem_append_left (by omega)]
        exact fun h => hw (h ▸ List.getElem_mem _)
      rw [← Nat.add_assoc, lineStart, load_of_lt hlt, C.ok_bind, if_pos hc]
      exact lineStart_line hfront hw rest j (by omega)

/-! ## The loop -/

section Loop

variable (content : List UInt8 → List UInt8) (drive : UInt8)

theorem stampFirst_none {f : ModifiedFile} : ∀ {ls : List Md5Line},
    (∀ l ∈ ls, ¬l.Contains f) → stampFirst content drive f ls = ls
  | [], _ => rfl
  | l :: ls, h => by
      rw [stampFirst, if_neg (h l List.mem_cons_self), stampFirst_none fun l' hl' =>
        h l' (List.mem_cons_of_mem l hl')]

theorem stampFirst_some {f : ModifiedFile} {l : Md5Line} (hcontains : l.Contains f)
    (after : List Md5Line) : ∀ {before : List Md5Line}, (∀ l ∈ before, ¬l.Contains f) →
      stampFirst content drive f (before ++ l :: after)
        = before ++ l.stamp content drive f :: after
  | [], _ => if_pos hcontains
  | b :: before, h => by
      rw [List.cons_append, stampFirst, if_neg (h b List.mem_cons_self),
        stampFirst_some hcontains after fun l' hl' => h l' (List.mem_cons_of_mem b hl')]
      rfl

/-- Either no line contains the path, or there is a first one that does. -/
theorem exists_first_contains (f : ModifiedFile) : ∀ ls : List Md5Line,
    (∀ l ∈ ls, ¬l.Contains f) ∨
      ∃ before l after, ls = before ++ l :: after ∧ (∀ b ∈ before, ¬b.Contains f) ∧
        l.Contains f
  | [] => .inl nofun
  | l :: ls => by
      by_cases hl : l.Contains f
      · exact .inr ⟨[], l, ls, rfl, nofun, hl⟩
      · rcases exists_first_contains f ls with hnone | ⟨before, l', after, rfl, hb, hl'⟩
        · exact .inl (List.forall_mem_cons.mpr ⟨hl, hnone⟩)
        · exact .inr ⟨l :: before, l', after, rfl, List.forall_mem_cons.mpr ⟨hl, hb⟩, hl'⟩

/-- **A turn of the loop** stamps the first line that contains the path. -/
theorem updateSum_text (closed : Bool) (behind : List UInt8) (f : ModifiedFile)
    (ls : List Md5Line) :
    updateSum content (md5Text closed ls ++ nul :: behind) (f.name drive)
      = .ok (md5Text closed (stampFirst content drive f ls) ++ nul :: behind) := by
  have hnul := md5Text_no_nul closed ls
  have hlen : ¬(unixPath (f.name drive)).length < 2 := by simp [f.unixPath_name drive]
  have hneedle : (unixPath (f.name drive)).drop 2 = f.needle := rfl
  have hsearch : strstrFrom f.needle (md5Text closed ls ++ nul :: behind) 0
      = .ok (firstHit (f.needle.isPrefixOf ·) (md5Text closed ls)) := by
    rw [strstrFrom, cstrAt_text hnul behind (Nat.zero_le _), List.drop_zero]
    simp
  simp only [updateSum, if_neg hlen, hneedle, hsearch, C.ok_bind]
  rcases exists_first_contains f ls with hnone | ⟨before, l, after, rfl, hb, hl⟩
  · rw [firstHit_text_none f closed ls hnone, stampFirst_none content drive hnone]
    rfl
  · obtain ⟨j, hj, hfirst⟩ := firstHit_text_some closed hl after before hb
    rw [hfirst, stampFirst_some content drive hl after hb, md5Text_split, md5Text_split]
    set front := unlines lf (before.map (·.text))
    have hback : lineStart (front ++ (l.text ++ (md5Rest closed after ++ nul :: behind)))
        (front.length + j) = .ok front.length :=
      lineStart_line (unlines_getLast _) l.text_no_break.1 _ j hj
    have hmem : front ++ (l.text ++ md5Rest closed after) ++ nul :: behind
        = front ++ (l.text ++ (md5Rest closed after ++ nul :: behind)) := by
      simp only [List.append_assoc]
    have hdigit : ∃ c, load (front ++ (l.text ++ (md5Rest closed after ++ nul :: behind)))
        front.length = .ok c ∧ isHexascii c = true := by
      cases hdigits : l.digits with
      | nil => simpa [hdigits] using l.digits_length
      | cons c cs =>
          refine ⟨c, ?_, l.digits_hex c (by simp [hdigits])⟩
          simp [load, Md5Line.text, hdigits]
    obtain ⟨c, hload, hhex⟩ := hdigit
    have hsum := f.sumText_length content drive
    have hcopy : copyInto (front ++ (l.text ++ (md5Rest closed after ++ nul :: behind)))
        front.length (f.sumText content drive)
        = .ok (front ++ ((l.stamp content drive f).text
          ++ (md5Rest closed after ++ nul :: behind))) := by
      rw [copyInto_of_le (by simp only [List.length_append, l.text_length]; omega),
        List.take_left, hsum, ← List.drop_drop, List.drop_left, Md5Line.text,
        List.append_assoc l.digits, List.drop_left' l.digits_length, Md5Line.text]
      simp only [Md5Line.stamp, List.append_assoc]
    simp only [hmem, hback, C.ok_bind, hload, hhex, assertThat, if_true]
    rw [← ModifiedFile.sumText, hcopy]
    simp only [List.append_assoc]

theorem updateSums_text (closed : Bool) (behind : List UInt8) :
    ∀ (files : List ModifiedFile) (ls : List Md5Line),
      updateSums content (md5Text closed ls ++ nul :: behind)
          (files.map (·.name drive))
        = .ok (md5Text closed (files.foldl (fun ls f => stampFirst content drive f ls) ls)
          ++ nul :: behind)
  | [], _ => rfl
  | f :: files, ls => by
      have ih := updateSums_text closed behind files (stampFirst content drive f ls)
      rw [updateSums] at ih ⊢
      rw [List.map_cons, List.foldlM_cons, updateSum_text, List.foldl_cons, ← ih]
      rfl

/-! ## The line that is hit -/

/-- The first line in which the path of a file occurs -/
def ModifiedFile.target (f : ModifiedFile) (ls : List Md5Line) : Option ℕ :=
  ls.findIdx? fun l => l.Contains f

/-- The last of the files whose path occurs in the line `k` first -/
def lastHit (files : List ModifiedFile) (ls : List Md5Line) (k : ℕ) :
    Option ModifiedFile :=
  (files.filter fun f => f.target ls = some k).getLast?

theorem stampFirst_getElem? (f : ModifiedFile) : ∀ (ls : List Md5Line) (k : ℕ),
    (stampFirst content drive f ls)[k]? = ls[k]?.map fun l =>
      if f.target ls = some k then l.stamp content drive f else l
  | [], k => rfl
  | l :: ls, k => by
      by_cases hl : l.Contains f
      · have htarget : f.target (l :: ls) = some 0 := by
          simp [ModifiedFile.target, List.findIdx?_cons, hl]
        rw [stampFirst, if_pos hl, htarget]
        cases k with
        | zero => simp
        | succ k => simp
      · have htarget : f.target (l :: ls) = (f.target ls).map (· + 1) := by
          simp [ModifiedFile.target, List.findIdx?_cons, hl]
        have ih := stampFirst_getElem? f ls
        rw [stampFirst, if_neg hl, htarget]
        cases k with
        | zero => simp
        | succ k => simpa using ih k

/-- The sums do not matter for the search. -/
theorem target_stampFirst (f g : ModifiedFile) : ∀ ls : List Md5Line,
    g.target (stampFirst content drive f ls) = g.target ls
  | [] => rfl
  | l :: ls => by
      have ih := target_stampFirst f g ls
      rw [stampFirst]
      split
      case isTrue => rfl
      case isFalse =>
          simp only [ModifiedFile.target, List.findIdx?_cons] at ih ⊢
          rw [ih]

theorem lastHit_append (files : List ModifiedFile) (f : ModifiedFile)
    (ls : List Md5Line) (k : ℕ) : lastHit (files ++ [f]) ls k
      = if f.target ls = some k then some f else lastHit files ls k := by
  rw [lastHit, List.filter_append, List.getLast?_append]
  by_cases hf : f.target ls = some k
  · simp [hf]
  · simp [hf, lastHit]

/-- **The whole loop** leaves in each line the sum of the last file whose path
occurs there first. -/
theorem foldl_stampFirst (files : List ModifiedFile) (ls : List Md5Line) :
    (∀ g : ModifiedFile,
      g.target (files.foldl (fun ls f => stampFirst content drive f ls) ls)
        = g.target ls) ∧
    ∀ k : ℕ, (files.foldl (fun ls f => stampFirst content drive f ls) ls)[k]?
      = ls[k]?.map fun l => match lastHit files ls k with
        | some f => l.stamp content drive f
        | none => l := by
  induction files using List.reverseRecOn with
  | nil => exact ⟨fun _ => rfl, fun k => by simp [lastHit]⟩
  | append_singleton files f ih =>
      obtain ⟨htarget, hget⟩ := ih
      rw [List.foldl_append, List.foldl_cons, List.foldl_nil]
      refine ⟨fun g => by rw [target_stampFirst, htarget], fun k => ?_⟩
      rw [stampFirst_getElem?, hget, htarget, lastHit_append, Option.map_map]
      congr 1
      funext l
      rw [Function.comp_apply]
      by_cases hf : f.target ls = some k
      · rw [if_pos hf, if_pos hf]
        cases lastHit files ls k <;> rfl
      · rw [if_neg hf, if_neg hf]

/-! ## Where it goes right -/

/-- In each line: what is written last is the sum of its own file, or the one
that is due there anyhow; and if nothing is written, nothing is due that is not
there. -/
structure Unmisplaced (files : List ModifiedFile) (ls : List Md5Line) : Prop where
  written : ∀ k l f, ls[k]? = some l → lastHit files ls k = some f →
    l.Names f ∨ f.sumText content drive = (l.due content drive files).digits
  kept : ∀ k l, ls[k]? = some l → lastHit files ls k = none →
    (l.due content drive files).digits = l.digits

theorem due_path (files : List ModifiedFile) (l : Md5Line) :
    (l.due content drive files).path = l.path := by
  unfold Md5Line.due
  split <;> rfl

/-- The text of lines with the same paths shows their sums. -/
theorem md5Text_inj (closed : Bool) : ∀ {ls ls' : List Md5Line},
    ls.map (·.path) = ls'.map (·.path) → md5Text closed ls = md5Text closed ls' →
    ls = ls'
  | [], [], _, _ => rfl
  | l :: ls, l' :: ls', hpaths, htext => by
      simp only [List.map_cons, List.cons.injEq] at hpaths
      rw [md5Text_cons, md5Text_cons] at htext
      obtain ⟨hline, hrest⟩ := List.append_inj htext
        (by rw [l.text_length, l'.text_length, hpaths.1])
      have hdigits := (List.append_inj hline
        (l.digits_length.trans l'.digits_length.symm)).1
      have hls : md5Text closed ls = md5Text closed ls' := by
        have hlen := congrArg List.length hpaths.2
        cases ls with
        | nil =>
            cases ls' with
            | nil => rfl
            | cons _ _ => simp at hlen
        | cons _ _ =>
            cases ls' with
            | nil => simp at hlen
            | cons _ _ => exact (List.cons.inj hrest).2
      rw [Md5Line.ext hdigits hpaths.1, md5Text_inj closed hpaths.2 hls]

/-- What is due in a line that a file of the list has the path of -/
theorem due_of_names {files : List ModifiedFile} {l : Md5Line} {f : ModifiedFile}
    (hf : f ∈ files) (hnames : l.Names f) :
    l.due content drive files = l.stamp content drive f := by
  have hsame {g : ModifiedFile} (hg : l.Names g) :
      l.stamp content drive g = l.stamp content drive f := by
    have hneedle : g.needle = f.needle := hg.trans hnames.symm
    refine Md5Line.ext ?_ rfl
    show (fileSum content (unixPath (g.name drive))).flatMap sumDigits
      = (fileSum content (unixPath (f.name drive))).flatMap sumDigits
    rw [g.unixPath_name, f.unixPath_name, hneedle]
  unfold Md5Line.due
  cases hfind : files.find? fun f => l.Names f with
  | none => exact absurd hnames (by simpa using List.find?_eq_none.mp hfind f hf)
  | some g => exact hsame (by simpa using List.find?_some hfind)

theorem lastHit_mem {files : List ModifiedFile} {ls : List Md5Line} {k : ℕ}
    {f : ModifiedFile} (h : lastHit files ls k = some f) : f ∈ files :=
  (List.mem_filter.mp (List.mem_of_getLast? h)).1

/-- **The update loop.** Every line of a modified file gets its sum, and every
other byte stays, if and only if no sum is misplaced. -/
theorem updateSums_due_iff (closed : Bool) (behind : List UInt8)
    (files : List ModifiedFile) (ls : List Md5Line) :
    updateSums content (md5Text closed ls ++ nul :: behind) (files.map (·.name drive))
        = .ok (md5Text closed (ls.map (·.due content drive files)) ++ nul :: behind) ↔
      Unmisplaced content drive files ls := by
  obtain ⟨-, hget⟩ := foldl_stampFirst content drive files ls
  rw [updateSums_text]
  set after := files.foldl (fun ls f => stampFirst content drive f ls) ls with hafter
  have hpaths : after.map (·.path) = (ls.map (·.due content drive files)).map (·.path) := by
    apply List.ext_getElem?
    intro k
    rw [List.getElem?_map, hget, List.map_map, List.getElem?_map, Option.map_map]
    congr 1
    funext l
    simp only [Function.comp_apply, due_path]
    split <;> rfl
  have htext : (Except.ok (md5Text closed after ++ nul :: behind) : C (List UInt8))
      = .ok (md5Text closed (ls.map (·.due content drive files)) ++ nul :: behind) ↔
        after = ls.map (·.due content drive files) := by
    rw [Except.ok.injEq, List.append_left_inj]
    exact ⟨md5Text_inj closed hpaths, fun h => by rw [h]⟩
  rw [htext, List.ext_getElem?_iff]
  simp only [hget, List.getElem?_map]
  constructor
  · intro h
    refine ⟨fun k l f hl hf => ?_, fun k l hl hf => ?_⟩
    · have hk := h k
      rw [hl, hf] at hk
      exact .inr (congrArg Md5Line.digits (Option.some.inj hk))
    · have hk := h k
      rw [hl, hf] at hk
      exact (congrArg Md5Line.digits (Option.some.inj hk)).symm
  · rintro ⟨hwritten, hkept⟩ k
    cases hl : ls[k]? with
    | none => rfl
    | some l =>
        cases hf : lastHit files ls k with
        | none =>
            exact congrArg some (Md5Line.ext (hkept k l hl hf).symm
              (due_path content drive files l).symm)
        | some f =>
            rcases hwritten k l f hl hf with hnames | hsum
            · exact congrArg some (due_of_names content drive (lastHit_mem hf) hnames).symm
            · exact congrArg some (Md5Line.ext hsum (due_path content drive files l).symm)

/-- No sum is misplaced where the lines have different paths, and none of them
contains the path of a modified file but the line of that file. -/
theorem unmisplaced_of_own {files : List ModifiedFile} {ls : List Md5Line}
    (hown : ∀ f ∈ files, ∀ l ∈ ls, l.Contains f → l.Names f)
    (hpaths : (ls.map (·.path)).Nodup) : Unmisplaced content drive files ls := by
  have htarget {f : ModifiedFile} (hf : f ∈ files) {k : ℕ} (hk : f.target ls = some k) :
      ∃ l, ls[k]? = some l ∧ l.Names f := by
    obtain ⟨hlt, hcontains, -⟩ := List.findIdx?_eq_some_iff_getElem.mp hk
    exact ⟨ls[k], List.getElem?_eq_getElem hlt,
      hown f hf _ (List.getElem_mem hlt) (by simpa using hcontains)⟩
  refine ⟨fun k l f hl hf => ?_, fun k l hl hf => ?_⟩
  · have hk : f.target ls = some k := by
      simpa using (List.mem_filter.mp (List.mem_of_getLast? hf)).2
    obtain ⟨l', hl', hnames⟩ := htarget (lastHit_mem hf) hk
    exact .inl (Option.some.inj (hl.symm.trans hl') ▸ hnames)
  · unfold Md5Line.due
    split
    case h_2 => rfl
    case h_1 f hfind =>
        exfalso
        have hmem : f ∈ files := List.mem_of_find?_eq_some hfind
        have hnames : l.Names f := by simpa using List.find?_some hfind
        have hcontains : l.Contains f := by
          rw [Md5Line.Contains, show f.needle = 47 :: l.path from hnames]
        -- the first line in which the path occurs is this one
        cases hk : f.target ls with
        | none =>
            exact absurd hcontains
              (by simpa using List.findIdx?_eq_none_iff.mp hk l (List.mem_of_getElem? hl))
        | some k' =>
            obtain ⟨l', hl', hnames'⟩ := htarget hmem hk
            have hpath : l'.path = l.path := (List.cons.inj (hnames'.symm.trans hnames)).2
            have hkk : k' = k := by
              obtain ⟨hlt, rfl⟩ := List.getElem?_eq_some_iff.mp hl
              obtain ⟨hlt', rfl⟩ := List.getElem?_eq_some_iff.mp hl'
              exact (@List.Nodup.getElem_inj_iff _ _ hpaths _ (by simpa using hlt') _
                (by simpa using hlt)).mp (by simpa using hpath)
            have hin : f ∈ files.filter fun f => f.target ls = some k :=
              List.mem_filter.mpr ⟨hmem, by simp [hk, hkk]⟩
            rw [lastHit, List.getLast?_eq_none_iff] at hf
            rw [hf] at hin
            cases hin

end Loop

def zeroLine (path : List UInt8) (h : lf ∉ path ∧ nul ∉ path) : Md5Line where
  digits := .replicate 32 48
  path := path
  digits_length := by decide
  digits_hex := by decide +kernel
  no_break := h.1
  no_nul := h.2

/-- `"X:/grub.cfg"` -/
def grubCfg : ModifiedFile where
  path := Ascii.text "/grub.cfg"
  root := by decide
  no_break := by decide
  no_nul := by decide

/-- A list with a copy of the file in front of it -/
def backupLines : List Md5Line :=
  [zeroLine (Ascii.text "grub.cfg.bak") (by decide),
    zeroLine (Ascii.text "grub.cfg") (by decide)]

/-- The line of the copy gets the sum of the file. -/
theorem updateSums_backup :
    updateSums (fun _ => []) (md5Text true backupLines ++ [nul]) [grubCfg.name 88]
      = .ok (Ascii.text "d41d8cd98f00b204e9800998ecf8427e  ./grub.cfg.bak\n"
        ++ Ascii.text "00000000000000000000000000000000  ./grub.cfg\n" ++ [nul]) ∧
    updateSums (fun _ => []) (md5Text true backupLines ++ [nul]) [grubCfg.name 88]
      ≠ .ok (md5Text true (backupLines.map (·.due (fun _ => []) 88 [grubCfg]))
        ++ [nul]) := by
  decide +kernel

end Nawam
