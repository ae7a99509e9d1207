import Nawam.Base.Achieves
import Nawam.Base.Extent
import Nawam.Parser.Oid

/-!
# The version in a Syslinux file

`GetSyslinuxVersion` looks in a bootloader for `ISOLINUX ` or `SYSLINUX ` with a version
that is not 0.0 behind it, and turns what follows the version into the rest of a path,
in place. The file comes with one NUL behind it, and each reader of a string relies on
that to stop it. `strtoul` is called on the character behind the one where it has
stopped, though, and that may be the NUL; and the character where it stops the second
time is overwritten with a slash.
-/

namespace Nawam

/-! ## Source -/

/-- `strtoul(&mem[i], &p, 10)`, and `p`. It reads up to the first character that is not
part of the number. -/
def strtoulAt (mem : List UInt8) (i : ℕ) : C (ℕ × ℕ) :=
  let s := mem.drop i
  if (signOf (s.dropWhile isSpace)).2.dropWhile (isDigitOf 10) = [] then .error .outOfBounds
  else .ok (strtoul 10 s, mem.length - (strtoulEnd s).length)

/-- `version`, and `p` behind the numbers -/
def syslinuxNumbers (mem : List UInt8) (i : ℕ) : C (ℕ × ℕ) := do
  let (major, p) ← strtoulAt mem i
  assertThat (major < 256)
  if major < 256 then
    let (minor, p) ← strtoulAt mem (p + 1)
    assertThat (minor < 256)
    .ok (if minor < 256 then ((major <<< 8) + minor) % 2 ^ 16 else 0, p)
  else .ok (0, p)

/-- The loop over the characters that are there twice -/
def duplicateLoop (mem : List UInt8) (i p : ℕ) : (fuel j : ℕ) → C ℕ
  | 0, _ => .error .outOfFuel
  | fuel + 1, j => do
      let a ← load mem (i + j)
      let b ← load mem (p + 1 + j)
      if a = b ∧ a ≠ Ascii.space then duplicateLoop mem i p fuel (j + 1) else .ok j

/-- The `x.yz-` duplicate is removed: the buffer, and `p`. -/
def skipDuplicate (mem : List UInt8) (i p : ℕ) : C (List UInt8 × ℕ) := do
  let j ← duplicateLoop mem i p mem.length 0
  let c ← load mem (p + (j + 1))
  let j := if c = Ascii.minus then j + 1 else j
  if 4 ≤ j then do
    let mem ← store mem (p + j) 47
    .ok (mem, p + j)
  else .ok (mem, p)

/-- `safe_strlen(p)` -/
def strlenAt (mem : List UInt8) (p : ℕ) : C ℕ := do
  let q ← scanFrom (· = Ascii.nul) mem p
  .ok (q - p)

/-- The loop over the spaces and stars at the end, from `p[j]` down to `p[1]` -/
def trimLoop (mem : List UInt8) (p : ℕ) : (j : ℕ) → C (List UInt8)
  | 0 => .ok mem
  | j + 1 => do
      let c ← load mem (p + (j + 1))
      if c = Ascii.space ∨ c = 42 then do
        let mem ← store mem (p + (j + 1)) Ascii.nul
        trimLoop mem p j
      else .ok mem

def unauthorizedChars : List UInt8 := Ascii.text "<>:|*?\\/"

/-- The loop over the characters of the string. `'_'` is not unauthorized, so the inner
loop replaces at most once. -/
def sanitizeLoop (mem : List UInt8) (p : ℕ) : (fuel j : ℕ) → C (List UInt8)
  | 0, _ => .error .outOfFuel
  | fuel + 1, j => do
      let n ← strlenAt mem p
      if j < n then do
        let c ← load mem (p + j)
        let mem ← if c ∈ unauthorizedChars then store mem (p + j) 95 else .ok mem
        sanitizeLoop mem p fuel (j + 1)
      else .ok mem

/-- What is done with the string behind the version: the buffer, and `*ext`, where that
is not `nullstr`. The string starts with a slash, so its length is not zero. -/
def extraVersion (mem : List UInt8) (i p : ℕ) : C (List UInt8 × Option ℕ) := do
  let mem ← store mem p 47
  let (mem, p) ← skipDuplicate mem i p
  let n ← strlenAt mem p
  let mem ← trimLoop mem p (n - 1)
  let mem ← sanitizeLoop mem p mem.length 1
  let c ← load mem (p + 1)
  .ok (mem, if c = Ascii.nul then none else some p)

/-- What `GetSyslinuxVersion` returns, and the buffer -/
structure SyslinuxVersion where
  version : ℕ
  ext : Option ℕ
  mem : List UInt8
  deriving DecidableEq

def syslinuxLoop (mem : List UInt8) (bufSize : ℕ) : (fuel i : ℕ) → C SyslinuxVersion
  | 0, _ => .error .outOfFuel
  | fuel + 1, i =>
      if i < bufSize - 64 then do
        let linux ← loadN mem i 6
        if linux ≠ Ascii.text "LINUX " then syslinuxLoop mem bufSize fuel (i + 1)
        else do
          let mark ← loadN mem (i - 3) 3
          if ¬(mark = Ascii.text "ISO" ∨ mark = Ascii.text "SYS") then
            syslinuxLoop mem bufSize fuel (i + 1)
          else do
            let (version, p) ← syslinuxNumbers mem (i + 6)
            if version = 0 then syslinuxLoop mem bufSize fuel (i + 6 + 1)
            else do
              let (mem, ext) ← extraVersion mem (i + 6) p
              .ok ⟨version, ext, mem⟩
      else .ok ⟨0, none, mem⟩

def getSyslinuxVersion (mem : List UInt8) (bufSize : ℕ) : C SyslinuxVersion :=
  if bufSize < 256 then .ok ⟨0, none, mem⟩ else syslinuxLoop mem bufSize bufSize 64

/-! ## What it has to do -/

/-- The extra version is empty, or a string in the buffer: a slash, and then nothing that
is not allowed. -/
def SyslinuxVersion.WellFormed (r : SyslinuxVersion) : Prop :=
  ∀ p ∈ r.ext, ∃ s, cstrAt r.mem p = .ok (47 :: s) ∧ ∀ c ∈ s, c ∉ unauthorizedChars

/-! ## The file -/

def fileBuffer (buf : List UInt8) : List UInt8 := buf ++ [Ascii.nul]

/-- `ISOLINUX ` or `SYSLINUX ` with its `L` at `i` -/
def SyslinuxMark (buf : List UInt8) (i : ℕ) : Prop :=
  64 ≤ i ∧ i < buf.length - 64 ∧ Extent.slice buf (i, 6) = Ascii.text "LINUX " ∧
    (Extent.slice buf (i - 3, 3) = Ascii.text "ISO" ∨
      Extent.slice buf (i - 3, 3) = Ascii.text "SYS")

def numberAt (buf : List UInt8) (i : ℕ) : ℕ := strtoul 10 ((fileBuffer buf).drop i)

def numberEnd (buf : List UInt8) (i : ℕ) : ℕ :=
  (fileBuffer buf).length - (strtoulEnd ((fileBuffer buf).drop i)).length

/-- The version at `i` is 0.0. -/
def ZeroVersion (buf : List UInt8) (i : ℕ) : Prop :=
  numberAt buf i = 0 ∧ numberEnd buf i < buf.length ∧
    numberAt buf (numberEnd buf i + 1) = 0

/-- Up to the end of the buffer, what stands behind `p` is what stands at `i`, with a
slash at `p`, and has no space. -/
def RepeatsToEnd (buf : List UInt8) (i p : ℕ) : Prop :=
  ∀ j, p + 1 + j ≤ buf.length →
    ((fileBuffer buf).set p 47)[i + j]? = ((fileBuffer buf).set p 47)[p + 1 + j]? ∧
      ((fileBuffer buf).set p 47)[i + j]? ≠ some Ascii.space

/-- With the version at `i` the reading goes on behind the end of the buffer: its first
number ends there; or its second one does; or all that follows repeats it. -/
def Overruns (buf : List UInt8) (i : ℕ) : Prop :=
  numberAt buf i < 256 ∧
    (numberEnd buf i = buf.length ∨
      (numberAt buf (numberEnd buf i + 1) < 256 ∧ ¬ ZeroVersion buf i ∧
        (numberEnd buf (numberEnd buf i + 1) = buf.length ∨
          RepeatsToEnd buf i (numberEnd buf (numberEnd buf i + 1)))))

/-! ## Reading the numbers -/

theorem mem_dropWhile {α : Type} {p : α → Bool} {a : α} {l : List α} (ha : a ∈ l)
    (hp : p a = false) : a ∈ l.dropWhile p := by
  rw [← List.takeWhile_append_dropWhile (p := p) (l := l)] at ha
  rcases List.mem_append.mp ha with htake | hdrop
  · have htrue := List.mem_takeWhile_imp htake
    rw [hp] at htrue
    cases htrue
  · exact hdrop

section

variable {mem s buf : List UInt8} {i p : ℕ}

theorem nul_mem_signOf (h : Ascii.nul ∈ s) : Ascii.nul ∈ (signOf s).2 := by
  unfold signOf
  split
  · exact (List.mem_cons.mp h).resolve_left (by decide)
  · exact (List.mem_cons.mp h).resolve_left (by decide)
  · exact h

theorem nul_mem_number (h : Ascii.nul ∈ s) :
    Ascii.nul ∈ (signOf (s.dropWhile isSpace)).2.dropWhile (isDigitOf 10) :=
  mem_dropWhile (nul_mem_signOf (mem_dropWhile h (by decide))) (by decide)

theorem nul_mem_strtoulEnd (h : Ascii.nul ∈ s) : Ascii.nul ∈ strtoulEnd s := by
  rw [strtoulEnd]
  split
  · exact nul_mem_number h
  · exact h

theorem signOf_suffix (s : List UInt8) : (signOf s).2 <:+ s := by
  unfold signOf
  split
  · exact List.suffix_cons _ _
  · exact List.suffix_cons _ _
  · exact List.suffix_refl _

theorem strtoulEnd_suffix (s : List UInt8) : strtoulEnd s <:+ s := by
  rw [strtoulEnd]
  split
  · exact (List.dropWhile_suffix _).trans ((signOf_suffix _).trans (List.dropWhile_suffix _))
  · exact List.suffix_refl s

theorem fileBuffer_length (buf : List UInt8) : (fileBuffer buf).length = buf.length + 1 := by
  rw [fileBuffer, List.length_append, List.length_singleton]

theorem nul_mem_fileBuffer (h : i ≤ buf.length) : Ascii.nul ∈ (fileBuffer buf).drop i := by
  rw [fileBuffer, List.drop_append_of_le_length h]
  exact List.mem_append_right _ (List.mem_singleton_self _)

/-- A number that starts in the buffer is read in the buffer. -/
theorem strtoulAt_fileBuffer (h : i ≤ buf.length) :
    strtoulAt (fileBuffer buf) i = .ok (numberAt buf i, numberEnd buf i) := by
  have hne := List.ne_nil_of_mem (nul_mem_number (nul_mem_fileBuffer h))
  rw [strtoulAt, if_neg hne]
  rfl

theorem strtoulAt_behind (h : mem.length ≤ i) : strtoulAt mem i = .error .outOfBounds := by
  rw [strtoulAt, List.drop_eq_nil_of_le h]
  rfl

theorem numberEnd_mem (h : i ≤ buf.length) :
    i ≤ numberEnd buf i ∧ numberEnd buf i ≤ buf.length := by
  have hpos := List.length_pos_of_mem (nul_mem_strtoulEnd (nul_mem_fileBuffer h))
  have hle := (strtoulEnd_suffix ((fileBuffer buf).drop i)).length_le
  have hlen := fileBuffer_length buf
  rw [List.length_drop] at hle
  rw [numberEnd]
  omega

theorem syslinuxNumbers_eq (h : i ≤ buf.length) :
    syslinuxNumbers (fileBuffer buf) i =
      if numberAt buf i < 256 then
        if numberEnd buf i = buf.length then .error .outOfBounds
        else if numberAt buf (numberEnd buf i + 1) < 256 then
          .ok (256 * numberAt buf i + numberAt buf (numberEnd buf i + 1),
            numberEnd buf (numberEnd buf i + 1))
        else .error .assertion
      else .error .assertion := by
  obtain ⟨-, hend⟩ := numberEnd_mem h
  rw [syslinuxNumbers, strtoulAt_fileBuffer h]
  simp only [C.ok_bind]
  by_cases hmajor : numberAt buf i < 256
  · rw [decide_eq_true hmajor, assertThat_true, C.ok_bind, if_pos hmajor, if_pos hmajor]
    by_cases hlast : numberEnd buf i = buf.length
    · rw [if_pos hlast, strtoulAt_behind, C.error_bind]
      rw [fileBuffer_length, hlast]
    · rw [if_neg hlast, strtoulAt_fileBuffer (by omega)]
      simp only [C.ok_bind]
      by_cases hminor : numberAt buf (numberEnd buf i + 1) < 256
      · have hversion : ((numberAt buf i <<< 8) + numberAt buf (numberEnd buf i + 1)) % 2 ^ 16 =
            256 * numberAt buf i + numberAt buf (numberEnd buf i + 1) := by
          rw [Nat.shiftLeft_eq]
          omega
        rw [decide_eq_true hminor, assertThat_true, C.ok_bind, if_pos hminor, if_pos hminor,
          hversion]
      · rw [decide_eq_false hminor, if_neg hminor, if_neg hminor]
        rfl
  · rw [decide_eq_false hmajor, if_neg hmajor, if_neg hmajor]
    rfl

/-! ## The extra version -/

theorem duplicateLoop_overrun (hi : i ≤ p)
    (h : ∀ j, p + 1 + j < mem.length →
      mem[i + j]? = mem[p + 1 + j]? ∧ mem[i + j]? ≠ some Ascii.space) :
    ∀ {fuel j : ℕ}, p + j < mem.length → mem.length ≤ p + j + fuel →
      duplicateLoop mem i p fuel j = .error .outOfBounds := by
  intro fuel
  induction fuel with
  | zero =>
      intro j hj hfuel
      omega
  | succ fuel ih =>
      intro j hj hfuel
      rw [duplicateLoop, load_of_lt (show i + j < mem.length by omega), C.ok_bind]
      by_cases hlt : p + 1 + j < mem.length
      · obtain ⟨hsame, hspace⟩ := h j hlt
        rw [List.getElem?_eq_getElem (show i + j < mem.length by omega)] at hsame hspace
        rw [List.getElem?_eq_getElem hlt] at hsame
        rw [load_of_lt hlt, C.ok_bind, if_pos]
        · exact ih (by omega) (by omega)
        · exact ⟨Option.some_inj.mp hsame, fun heq => hspace (congrArg some heq)⟩
      · have hnone : mem[p + 1 + j]? = none := List.getElem?_eq_none (by omega)
        rw [load, hnone]
        rfl

/-- The loop ends where the characters differ, or at a space. -/
theorem duplicateLoop_achieves {j₀ : ℕ} (hi : i ≤ p) (hj₀ : p + 1 + j₀ < mem.length)
    (h : ¬(mem[i + j₀]? = mem[p + 1 + j₀]? ∧ mem[i + j₀]? ≠ some Ascii.space)) :
    ∀ {fuel j : ℕ}, j ≤ j₀ → mem.length ≤ p + j + fuel →
      Achieves (duplicateLoop mem i p fuel j) fun j => p + 1 + j < mem.length := by
  intro fuel
  induction fuel with
  | zero =>
      intro j hj hfuel
      omega
  | succ fuel ih =>
      intro j hj hfuel
      have hleft : i + j < mem.length := by omega
      have hright : p + 1 + j < mem.length := by omega
      rw [duplicateLoop, load_of_lt hleft, C.ok_bind, load_of_lt hright, C.ok_bind]
      refine .ite (fun hsame => ?_) (fun _ => .ok hright)
      rcases Nat.eq_or_lt_of_le hj with rfl | hlt
      · refine absurd ⟨?_, ?_⟩ h
        · rw [List.getElem?_eq_getElem hleft, List.getElem?_eq_getElem hright, hsame.1]
        · rw [List.getElem?_eq_getElem hleft]
          exact fun heq => hsame.2 (Option.some_inj.mp heq)
      · exact ih (by omega) (by omega)

/-- At `p` there is a slash, and then the string `s`. -/
def SlashString (mem : List UInt8) (p : ℕ) (s : List UInt8) : Prop :=
  Ascii.nul ∉ s ∧ ∃ front post, front.length = p ∧ mem = front ++ 47 :: (s ++ Ascii.nul :: post)

theorem exists_slashString {q : ℕ} (hslash : mem[p]? = some 47) (hpq : p < q)
    (hnul : mem[q]? = some Ascii.nul) : ∃ s, SlashString mem p s := by
  obtain ⟨hp, hget⟩ := List.getElem?_eq_some_iff.mp hslash
  have hmem : Ascii.nul ∈ mem.drop (p + 1) := by
    apply List.mem_of_getElem? (i := q - (p + 1))
    rw [List.getElem?_drop, show p + 1 + (q - (p + 1)) = q by omega, hnul]
  obtain ⟨s, post, hsplit, hs⟩ := List.eq_append_cons_of_mem hmem
  refine ⟨s, hs, mem.take p, post, ?_, ?_⟩
  · rw [List.length_take]
    omega
  · rw [← hsplit, ← hget, List.cons_getElem_drop_succ, List.take_append_drop]

theorem strlenAt_slashString (h : SlashString mem p s) : strlenAt mem p = .ok (s.length + 1) := by
  obtain ⟨hs, front, post, rfl, rfl⟩ := h
  have hscan : scanFrom (· = Ascii.nul) (front ++ ((47 :: s) ++ Ascii.nul :: post)) front.length
      = .ok (front.length + (47 :: s).length) := by
    apply scanFrom_append
    · intro b hb
      rcases List.mem_cons.mp hb with rfl | hb
      · decide
      · apply decide_eq_false
        rintro rfl
        exact hs hb
    · rfl
  rw [strlenAt]
  rw [List.cons_append] at hscan
  rw [hscan, C.ok_bind, List.length_cons]
  congr 1
  omega

/-- What is in front of a character of the string, and what is behind it -/
theorem SlashString.split {s t : List UInt8} {c : UInt8} (h : SlashString mem p (s ++ c :: t)) :
    ∃ front post, front.length = p ∧ (front ++ 47 :: s).length = p + (s.length + 1) ∧
      mem = (front ++ 47 :: s) ++ c :: (t ++ Ascii.nul :: post) := by
  obtain ⟨-, front, post, rfl, rfl⟩ := h
  refine ⟨front, post, rfl, ?_, ?_⟩
  · rw [List.length_append, List.length_cons]
  · rw [List.append_assoc, List.cons_append, List.append_assoc, List.cons_append]

theorem SlashString.load {s t : List UInt8} {c : UInt8}
    (h : SlashString mem p (s ++ c :: t)) : load mem (p + (s.length + 1)) = .ok c := by
  obtain ⟨front, post, -, hlen, rfl⟩ := h.split
  rw [← hlen, load_append_cons]

theorem SlashString.store {s t : List UInt8} {c : UInt8} (b : UInt8)
    (h : SlashString mem p (s ++ c :: t)) :
    ∃ front post, front.length = p ∧ store mem (p + (s.length + 1)) b =
      .ok (front ++ 47 :: (s ++ b :: (t ++ Ascii.nul :: post))) := by
  obtain ⟨front, post, hfront, hlen, rfl⟩ := h.split
  refine ⟨front, post, hfront, ?_⟩
  rw [← hlen, store_append_cons, List.append_assoc, List.cons_append]

theorem trimLoop_achieves (h : SlashString mem p s) :
    Achieves (trimLoop mem p s.length) fun mem => ∃ s, SlashString mem p s := by
  induction s using List.reverseRecOn generalizing mem with
  | nil => exact .ok ⟨[], h⟩
  | append_singleton s c ih =>
      rw [List.length_append, List.length_singleton, trimLoop, h.load, C.ok_bind]
      refine .ite (fun _ => ?_) (fun _ => .ok ⟨_, h⟩)
      obtain ⟨front, post, hfront, hstore⟩ := h.store Ascii.nul
      rw [hstore, C.ok_bind]
      refine ih ⟨fun hs => h.1 (List.mem_append_left _ hs), front, _, hfront, rfl⟩

/-- The string is clean up to the character that is next. -/
theorem sanitizeLoop_achieves {t : List UInt8} (hs : ∀ c ∈ s, c ∉ unauthorizedChars) {fuel : ℕ}
    (hfuel : t.length < fuel) (h : SlashString mem p (s ++ t)) :
    Achieves (sanitizeLoop mem p fuel (s.length + 1)) fun mem =>
      ∃ s, SlashString mem p s ∧ ∀ c ∈ s, c ∉ unauthorizedChars := by
  induction t generalizing mem s fuel with
  | nil =>
      obtain ⟨fuel, rfl⟩ := Nat.exists_eq_add_one.mpr (show 0 < fuel by omega)
      rw [sanitizeLoop, strlenAt_slashString h, C.ok_bind, List.append_nil,
        if_neg (Nat.lt_irrefl _)]
      rw [List.append_nil] at h
      exact .ok ⟨s, h, hs⟩
  | cons c t ih =>
      obtain ⟨fuel, rfl⟩ := Nat.exists_eq_add_one.mpr (show 0 < fuel by omega)
      have hlt : s.length + 1 < (s ++ c :: t).length + 1 := by
        rw [List.length_append, List.length_cons]
        omega
      rw [List.length_cons] at hfuel
      -- what the turn leaves at the next character
      have hnext : ∀ d : UInt8, d ≠ Ascii.nul → d ∉ unauthorizedChars → ∀ mem',
          SlashString mem' p (s ++ d :: t) →
          Achieves (sanitizeLoop mem' p fuel (s.length + 1 + 1)) fun mem =>
            ∃ s, SlashString mem p s ∧ ∀ c ∈ s, c ∉ unauthorizedChars := by
        intro d hd hclean mem' hmem
        have hlen : s.length + 1 = (s ++ [d]).length := by
          rw [List.length_append, List.length_singleton]
        rw [hlen]
        apply ih
        · intro e he
          rcases List.mem_append.mp he with he | he
          · exact hs e he
          · rw [List.mem_singleton.mp he]
            exact hclean
        · omega
        · rw [List.append_assoc]
          exact hmem
      have hc : c ≠ Ascii.nul := by
        rintro rfl
        exact h.1 (List.mem_append_right s List.mem_cons_self)
      rw [sanitizeLoop, strlenAt_slashString h, C.ok_bind, if_pos hlt, h.load, C.ok_bind]
      by_cases hbad : c ∈ unauthorizedChars
      · obtain ⟨front, post, hfront, hstore⟩ := h.store 95
        rw [if_pos hbad, hstore, C.ok_bind]
        refine hnext 95 (by decide) (by decide) _ ⟨?_, front, post, hfront, ?_⟩
        · intro hmem
          rcases List.mem_append.mp hmem with hmem | hmem
          · exact h.1 (List.mem_append_left _ hmem)
          · rcases List.mem_cons.mp hmem with heq | hmem
            · exact absurd heq (by decide)
            · exact h.1 (List.mem_append_right s (List.mem_cons_of_mem c hmem))
        · rw [List.append_assoc, List.cons_append]
      · rw [if_neg hbad, C.ok_bind]
        exact hnext c hc hbad mem h

theorem skipDuplicate_achieves {j₀ : ℕ} (hi : i ≤ p) (hslash : mem[p]? = some 47)
    (hlast : mem[mem.length - 1]? = some Ascii.nul) (hj₀ : p + 1 + j₀ < mem.length)
    (h : ¬(mem[i + j₀]? = mem[p + 1 + j₀]? ∧ mem[i + j₀]? ≠ some Ascii.space)) :
    Achieves (skipDuplicate mem i p) fun r => ∃ s, SlashString r.1 r.2 s := by
  rw [skipDuplicate]
  refine .bind (duplicateLoop_achieves hi hj₀ h (Nat.zero_le j₀) (by omega)) fun j hj => ?_
  refine .bind (.load (show p + (j + 1) < mem.length by omega)) fun c hc => ?_
  -- the NUL at the end is not where the slash goes
  have hbefore : p + (if c = Ascii.minus then j + 1 else j) < mem.length - 1 := by
    split
    case isTrue hminus =>
        rcases Nat.lt_or_ge (p + (j + 1)) (mem.length - 1) with hlt | hge
        · exact hlt
        · rw [show p + (j + 1) = mem.length - 1 by omega, hlast, hminus] at hc
          exact absurd (Option.some_inj.mp hc) (by decide)
    case isFalse => omega
  generalize hk : (if c = Ascii.minus then j + 1 else j) = k at hbefore
  refine .ite (fun _ => ?_) (fun _ => ?_)
  · rw [store, if_pos (by omega), C.ok_bind]
    refine .ok (exists_slashString ?_ hbefore ?_)
    · exact List.getElem?_set_self (by omega)
    · rw [List.getElem?_set_ne (by omega)]
      exact hlast
  · exact .ok (exists_slashString hslash (show p < mem.length - 1 by omega) hlast)

theorem fileBuffer_last (buf : List UInt8) : (fileBuffer buf)[buf.length]? = some Ascii.nul := by
  rw [fileBuffer, List.getElem?_append_right (Nat.le_refl _), Nat.sub_self]
  rfl

theorem extraVersion_overrun (hi : i ≤ p) (hp : p ≤ buf.length)
    (h : p = buf.length ∨ RepeatsToEnd buf i p) :
    extraVersion (fileBuffer buf) i p = .error .outOfBounds := by
  have hlen := fileBuffer_length buf
  have hset : ((fileBuffer buf).set p 47).length = buf.length + 1 := by
    rw [List.length_set, hlen]
  have hrepeat : ∀ j, p + 1 + j < ((fileBuffer buf).set p 47).length →
      ((fileBuffer buf).set p 47)[i + j]? = ((fileBuffer buf).set p 47)[p + 1 + j]? ∧
        ((fileBuffer buf).set p 47)[i + j]? ≠ some Ascii.space := by
    intro j hj
    rw [hset] at hj
    rcases h with hend | hrepeat
    · omega
    · exact hrepeat j (by omega)
  rw [extraVersion, store, if_pos (by omega), C.ok_bind, skipDuplicate,
    duplicateLoop_overrun hi hrepeat (by omega) (by omega)]
  rfl

theorem extraVersion_achieves (hi : i ≤ p) (hp : p < buf.length)
    (h : ¬ RepeatsToEnd buf i p) (version : ℕ) :
    Achieves (extraVersion (fileBuffer buf) i p) fun r =>
      SyslinuxVersion.WellFormed ⟨version, r.2, r.1⟩ := by
  have hlen := fileBuffer_length buf
  have hset : ((fileBuffer buf).set p 47).length = buf.length + 1 := by
    rw [List.length_set, hlen]
  obtain ⟨j₀, hstop⟩ := not_forall.mp h
  obtain ⟨hj₀, hdiffer⟩ := Classical.not_imp.mp hstop
  rw [extraVersion, store, if_pos (by omega), C.ok_bind]
  have hslash : ((fileBuffer buf).set p 47)[p]? = some 47 := List.getElem?_set_self (by omega)
  have hlast : ((fileBuffer buf).set p 47)[((fileBuffer buf).set p 47).length - 1]?
      = some Ascii.nul := by
    rw [hset, Nat.add_sub_cancel, List.getElem?_set_ne (by omega)]
    exact fileBuffer_last buf
  have hskip := skipDuplicate_achieves hi hslash hlast (by omega) hdiffer
  refine .bind hskip ?_
  rintro ⟨mem, q⟩ ⟨s, hs⟩
  simp only [strlenAt_slashString hs, C.ok_bind, Nat.add_sub_cancel]
  refine .bind (trimLoop_achieves hs) ?_
  rintro mem ⟨s, hs⟩
  have hfuel : s.length < mem.length := by
    obtain ⟨-, front, post, -, rfl⟩ := hs
    rw [List.length_append, List.length_cons, List.length_append, List.length_cons]
    omega
  refine .bind (sanitizeLoop_achieves (s := []) (t := s) (fun _ hc => absurd hc List.not_mem_nil)
    hfuel hs) ?_
  rintro mem ⟨s, hs, hclean⟩
  obtain ⟨hnul, front, post, hfront, hmem⟩ := hs
  have hin : q + 1 < mem.length := by
    rw [hmem, List.length_append, List.length_cons, List.length_append, List.length_cons]
    omega
  refine .bind (.load hin) fun c _ => .ok ?_
  intro r hr
  have hrq : r = q := by
    split at hr
    · cases hr
    · exact (Option.mem_some.mp hr).symm
  refine ⟨s, ?_, hclean⟩
  have hstring : cstrAt (front ++ ((47 :: s) ++ Ascii.nul :: post)) front.length
      = .ok (47 :: s) := by
    apply cstrAt_append
    intro hmem
    rcases List.mem_cons.mp hmem with heq | hmem
    · exact absurd heq (by decide)
    · exact hnul hmem
  rw [hfront, List.cons_append, ← hmem] at hstring
  rw [hrq]
  exact hstring

/-! ## The loop over the file -/

theorem loadN_fileBuffer {n : ℕ} (h : i + n ≤ buf.length) :
    loadN (fileBuffer buf) i n = .ok (Extent.slice buf (i, n)) := by
  have hlen := fileBuffer_length buf
  rw [loadN, if_pos (by omega), fileBuffer, List.drop_append_of_le_length (by omega),
    List.take_append_of_le_length, Extent.slice]
  rw [List.length_drop]
  omega

theorem syslinuxLoop_end {bufSize fuel : ℕ} (h : bufSize - 64 ≤ i) :
    syslinuxLoop mem bufSize (fuel + 1) i = .ok ⟨0, none, mem⟩ := by
  rw [syslinuxLoop, if_neg (Nat.not_lt_of_le h)]

/-- Where there is no mark, the loop goes on with the next byte. -/
theorem syslinuxLoop_skip {fuel : ℕ} (hi : 64 ≤ i) (hlt : i < buf.length - 64)
    (h : ¬ SyslinuxMark buf i) :
    syslinuxLoop (fileBuffer buf) buf.length (fuel + 1) i =
      syslinuxLoop (fileBuffer buf) buf.length fuel (i + 1) := by
  rw [syslinuxLoop, if_pos hlt, loadN_fileBuffer (by omega), C.ok_bind]
  by_cases hlinux : Extent.slice buf (i, 6) = Ascii.text "LINUX "
  · have hmark : ¬(Extent.slice buf (i - 3, 3) = Ascii.text "ISO" ∨
        Extent.slice buf (i - 3, 3) = Ascii.text "SYS") :=
      fun hmark => h ⟨hi, hlt, hlinux, hmark⟩
    rw [if_neg (fun hne => hne hlinux), loadN_fileBuffer (by omega), C.ok_bind, if_pos hmark]
  · rw [if_pos hlinux]

theorem syslinuxLoop_mark {fuel : ℕ} (h : SyslinuxMark buf i) :
    syslinuxLoop (fileBuffer buf) buf.length (fuel + 1) i = (do
      let (version, p) ← syslinuxNumbers (fileBuffer buf) (i + 6)
      if version = 0 then syslinuxLoop (fileBuffer buf) buf.length fuel (i + 6 + 1)
      else do
        let (mem, ext) ← extraVersion (fileBuffer buf) (i + 6) p
        .ok ⟨version, ext, mem⟩) := by
  obtain ⟨hi, hlt, hlinux, hmark⟩ := h
  rw [syslinuxLoop, if_pos hlt, loadN_fileBuffer (by omega), C.ok_bind,
    if_neg (fun hne => hne hlinux), loadN_fileBuffer (by omega), C.ok_bind,
    if_neg (fun hnot => hnot hmark)]

theorem getElem?_of_slice {n k : ℕ} {t : List UInt8} (h : Extent.slice buf (i, n) = t)
    (hk : k < n) : buf[i + k]? = t[k]? := by
  rw [← h, Extent.slice, List.getElem?_take_of_lt hk, List.getElem?_drop]

/-- Two marks do not overlap, so the loop does not jump over one. -/
theorem SyslinuxMark.apart {k : ℕ} (h : SyslinuxMark buf i) (hlt : i < k) (hle : k ≤ i + 6) :
    ¬ SyslinuxMark buf k := by
  rintro ⟨-, -, -, hmark⟩
  obtain ⟨hi, -, hlinux, -⟩ := h
  obtain ⟨t, rfl⟩ : ∃ t, k = i + (t + 1) := ⟨k - i - 1, by omega⟩
  have ht : t < 6 := by omega
  -- the letter in front of the second mark is one of `LINUX `
  have hletter := getElem?_of_slice hlinux ht
  have hindex : i + (t + 1) - 3 + 2 = i + t := by omega
  have hnone : ∀ t < 6, (Ascii.text "LINUX ")[t]? ≠ (Ascii.text "ISO")[2]? ∧
      (Ascii.text "LINUX ")[t]? ≠ (Ascii.text "SYS")[2]? := by decide
  rcases hmark with hiso | hsys
  · have hlast := getElem?_of_slice hiso (show 2 < 3 by decide)
    rw [hindex, hletter] at hlast
    exact (hnone t ht).1 hlast
  · have hlast := getElem?_of_slice hsys (show 2 < 3 by decide)
    rw [hindex, hletter] at hlast
    exact (hnone t ht).2 hlast

/-- The first version that is not 0.0, if there is one, does not overrun the buffer. -/
def FirstVersionFits (buf : List UInt8) : Prop :=
  ∀ k, SyslinuxMark buf k → (∀ m < k, SyslinuxMark buf m → ZeroVersion buf (m + 6)) →
    ¬ Overruns buf (k + 6)

theorem ZeroVersion.not_overruns (h : ZeroVersion buf i) : ¬ Overruns buf i := by
  rintro ⟨-, hend | ⟨-, hne, -⟩⟩
  · have hlt := h.2.1
    omega
  · exact hne h

theorem firstVersionFits_iff (hmark : SyslinuxMark buf i)
    (hbefore : ∀ m < i, SyslinuxMark buf m → ZeroVersion buf (m + 6))
    (h : ¬ ZeroVersion buf (i + 6)) : FirstVersionFits buf ↔ ¬ Overruns buf (i + 6) := by
  constructor
  · intro hfits
    exact hfits i hmark hbefore
  · intro hi k hk hzero
    rcases Nat.lt_trichotomy k i with hlt | rfl | hlt
    · exact (hbefore k hlt hk).not_overruns
    · exact hi
    · exact absurd (hzero i hlt hmark) h

theorem syslinuxLoop_first {fuel : ℕ} (hmark : SyslinuxMark buf i)
    (h : ¬ ZeroVersion buf (i + 6)) :
    Contained (syslinuxLoop (fileBuffer buf) buf.length (fuel + 1) i)
      SyslinuxVersion.WellFormed ↔ ¬ Overruns buf (i + 6) := by
  have hi : i + 6 ≤ buf.length := by
    have hlt := hmark.2.1
    omega
  obtain ⟨hbegin, hend⟩ := numberEnd_mem hi
  rw [syslinuxLoop_mark hmark, syslinuxNumbers_eq hi]
  by_cases hmajor : numberAt buf (i + 6) < 256
  swap
  · rw [if_neg hmajor, C.error_bind]
    exact iff_of_true Contained.assertion fun hover => hmajor hover.1
  rw [if_pos hmajor]
  by_cases hlast : numberEnd buf (i + 6) = buf.length
  · rw [if_pos hlast, C.error_bind]
    exact iff_of_false Contained.not_outOfBounds fun hnot => hnot ⟨hmajor, Or.inl hlast⟩
  rw [if_neg hlast]
  by_cases hminor : numberAt buf (numberEnd buf (i + 6) + 1) < 256
  swap
  · rw [if_neg hminor, C.error_bind]
    refine iff_of_true Contained.assertion ?_
    rintro ⟨-, hlast' | ⟨hminor', -⟩⟩
    · exact hlast hlast'
    · exact hminor hminor'
  rw [if_pos hminor, C.ok_bind]
  obtain ⟨hstart, hend'⟩ := numberEnd_mem (show numberEnd buf (i + 6) + 1 ≤ buf.length by omega)
  have hversion : 256 * numberAt buf (i + 6) + numberAt buf (numberEnd buf (i + 6) + 1) ≠ 0 := by
    intro hzero
    exact h ⟨by omega, by omega, by omega⟩
  simp only [if_neg hversion]
  by_cases hover : numberEnd buf (numberEnd buf (i + 6) + 1) = buf.length ∨
      RepeatsToEnd buf (i + 6) (numberEnd buf (numberEnd buf (i + 6) + 1))
  · rw [extraVersion_overrun (by omega) hend' hover, C.error_bind]
    exact iff_of_false Contained.not_outOfBounds
      fun hnot => hnot ⟨hmajor, Or.inr ⟨hminor, h, hover⟩⟩
  · obtain ⟨hin, hrepeat⟩ := not_or.mp hover
    refine iff_of_true (Or.inr ?_) ?_
    · exact .bind (extraVersion_achieves (by omega) (by omega) hrepeat _)
        fun _ hformed => .ok hformed
    · rintro ⟨-, hlast' | ⟨-, -, hover'⟩⟩
      · exact hlast hlast'
      · exact hover hover'

theorem syslinuxLoop_contained_iff {fuel : ℕ} (hi : 64 ≤ i) (hle : i ≤ buf.length)
    (hfuel : buf.length < fuel + i)
    (hbefore : ∀ m < i, SyslinuxMark buf m → ZeroVersion buf (m + 6)) :
    Contained (syslinuxLoop (fileBuffer buf) buf.length fuel i) SyslinuxVersion.WellFormed ↔
      FirstVersionFits buf := by
  induction fuel generalizing i with
  | zero => omega
  | succ fuel ih =>
      rcases Nat.lt_or_ge i (buf.length - 64) with hlt | hge
      · by_cases hmark : SyslinuxMark buf i
        · by_cases hzero : ZeroVersion buf (i + 6)
          · obtain ⟨hmajor, hend, hminor⟩ := hzero
            rw [syslinuxLoop_mark hmark, syslinuxNumbers_eq (by omega), hmajor,
              if_pos (by decide), if_neg (by omega), hminor, if_pos (by decide), C.ok_bind]
            refine ih (by omega) (by omega) (by omega) fun m hm hmark' => ?_
            rcases Nat.lt_trichotomy m i with hlt | rfl | hgt
            · exact hbefore m hlt hmark'
            · exact ⟨hmajor, hend, hminor⟩
            · exact absurd hmark' (hmark.apart hgt (by omega))
          · rw [syslinuxLoop_first hmark hzero, firstVersionFits_iff hmark hbefore hzero]
        · rw [syslinuxLoop_skip hi hlt hmark]
          refine ih (by omega) (by omega) (by omega) fun m hm hmark' => ?_
          rcases Nat.lt_succ_iff_lt_or_eq.mp hm with hlt | rfl
          · exact hbefore m hlt hmark'
          · exact absurd hmark' hmark
      · rw [syslinuxLoop_end hge]
        refine iff_of_true (.ok fun p hp => nomatch hp) fun k hk _ => ?_
        have hlt := hk.2.1
        exact (hbefore k (by omega) hk).not_overruns

end

/-- `GetSyslinuxVersion` stays inside the buffer, and what it returns is well formed, unless
the first version in the file that is not 0.0 overruns it. -/
theorem getSyslinuxVersion_contained_iff (buf : List UInt8) :
    Contained (getSyslinuxVersion (fileBuffer buf) buf.length) SyslinuxVersion.WellFormed ↔
      (256 ≤ buf.length → FirstVersionFits buf) := by
  rw [getSyslinuxVersion]
  by_cases hsmall : buf.length < 256
  · rw [if_pos hsmall]
    exact iff_of_true (.ok fun p hp => nomatch hp) fun hlarge => by omega
  · rw [if_neg hsmall, syslinuxLoop_contained_iff (Nat.le_refl 64) (by omega) (by omega)]
    · exact ⟨fun h _ => h, fun h => h (by omega)⟩
    · intro m hm hmark
      have hge := hmark.1
      omega

/-- A file that ends with the version, 6.03 with zeros in front of it -/
def truncatedVersion : List UInt8 :=
  List.replicate 124 0 ++ (Ascii.text "ISOLINUX 6." ++ (List.replicate 120 Ascii.zero ++ [51]))

set_option maxRecDepth 100000 in
/-- The NUL behind the file is overwritten, and the comparison goes on behind it. -/
theorem truncatedVersion_not_contained :
    ¬ Contained (getSyslinuxVersion (fileBuffer truncatedVersion) truncatedVersion.length)
      SyslinuxVersion.WellFormed := by
  have hrun : getSyslinuxVersion (fileBuffer truncatedVersion) truncatedVersion.length
      = .error .outOfBounds := by decide
  rw [hrun]
  exact Contained.not_outOfBounds

end Nawam
