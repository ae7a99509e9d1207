import Nawam.Base.Chunks
import Nawam.Base.Search
import Nawam.Net.DbxInfo

/-!
# Renaming the bootloaders in md5sum.txt

The last part of `UpdateMD5Sum` of `hash.c`. The bootloaders of the image have
been renamed to `boot<arch>_original.efi`, and their lines have to say so; a
line with the total size goes in front of the list. The text is copied to a new
buffer up to each name that is found, and what is left of it at the end.

The loop looks for `" ./efi/boot/boot"` and tries all the names there, each by
the character where it would end. So it reads as far behind as the longest name
goes, also where the text is over before.
-/

namespace Nawam

open Ascii

/-! ## Source -/

/-- `StrStrIA(mem + off, needle)`, as an offset. -/
def strStrIFrom (needle mem : List UInt8) (off : ℕ) : C (Option ℕ) := do
  let s ← cstrAt mem off
  return (firstHit (fun t => (needle.map asciiLower).isPrefixOf (t.map asciiLower)) s).map
    (off + ·)

/-- `lstrcmpiA(a, b) == 0` -/
def lstrcmpi (a b : List UInt8) : Bool := a.map asciiLower = b.map asciiLower

/-- The digits of `%llx`, as many as there are, up to so many. -/
def hexNumeral : ℕ → ℕ → List UInt8
  | 0, _ => []
  | w + 1, v =>
      let digit := UInt8.ofNat (if v % 16 < 10 then 48 + v % 16 else 97 + (v % 16 - 10))
      if v < 16 then [digit] else hexNumeral w (v / 16) ++ [digit]

/-- `"# md5sum_totalbytes = 0x%llx\n"` -/
def totalbytesLine (md5sum_totalbytes : UInt64) : List UInt8 :=
  text "# md5sum_totalbytes = 0x" ++ (hexNumeral 16 md5sum_totalbytes.toNat ++ [lf])

/-- `snprintf(mem, size, …)`, for the text that the format makes. -/
def snprintfInto (mem : List UInt8) (size : ℕ) (s : List UInt8) : C (List UInt8) :=
  if size = 0 then return mem else copyInto mem 0 (s.take (size - 1) ++ [nul])

/-- `static_sprintf(bootloader_name, "boot%s.efi", efi_archname[i])` -/
def bootloaderName (archname : List UInt8) : List UInt8 :=
  text "boot" ++ (archname ++ text ".efi")

/-- The variables of the rewrite, the pointers as offsets. -/
structure Rewrite where
  md5_data : List UInt8
  new_data : List UInt8
  new_size : ℕ
  d : ℕ
  s : ℕ

/-- The copy up to the name that ends at `stop`, and the new end of the line. -/
def copyRenamed (stop : ℕ) (r : Rewrite) : C Rewrite := do
  -- `(uint32_t)(p - s) + 12 + (uint32_t)strlen(bootloader_name) - 4`
  let size := (stop - 4 + 2 ^ 32 - r.s) % 2 ^ 32
  let line ← loadN r.md5_data r.s size
  let new_data ← copyInto r.new_data r.d line
  let new_data ← copyInto new_data (r.d + size) (text "_original.efi\n" ++ [nul])
  return { r with
    new_data := new_data, new_size := (r.new_size + 9) % 2 ^ 32, d := r.d + size + 14,
    s := stop + 1 }

/-- A turn of the loop over `efi_archname`, for a match at `p`. -/
def renameArch (p : ℕ) (r : Rewrite) (archname : List UInt8) : C Rewrite := do
  let bootloader_name := bootloaderName archname
  let stop := p + 12 + bootloader_name.length
  let c ← load r.md5_data stop
  if c ≠ lf then return r
  else
    let patched ← store r.md5_data stop nul
    let name ← cstrAt patched (p + 12)
    let r ← (if lstrcmpi name bootloader_name then copyRenamed stop { r with md5_data := patched }
      else .ok { r with md5_data := patched })
    let restored ← store r.md5_data stop lf
    return { r with md5_data := restored }

/-- `for (i = 1; i < ARRAYSIZE(efi_archname); i++)` -/
def renameAt (r : Rewrite) (p : ℕ) : C Rewrite := efiArchname.tail.foldlM (renameArch p) r

/-- `for (p = md5_data; (p = StrStrIA(p, " ./efi/boot/boot")) != NULL; )` -/
def renameLoop : ℕ → ℕ → Rewrite → C Rewrite
  | 0, _, _ => .error .outOfFuel
  | fuel + 1, p, r => do
      let found ← strStrIFrom (text " ./efi/boot/boot") r.md5_data p
      match found with
      | none => return r
      | some p => do
          let r ← renameAt r p
          renameLoop fuel (p + 12) r

def startRewrite (md5_data : List UInt8) (md5_size size : ℕ) (md5sum_totalbytes : UInt64)
    (new_data : List UInt8) : C Rewrite :=
  if md5sum_totalbytes ≠ 0 then do
    let new_data ← snprintfInto new_data size (totalbytesLine md5sum_totalbytes)
    let header ← cstrAt new_data 0
    return ⟨md5_data, new_data, (md5_size + header.length) % 2 ^ 32, header.length, 0⟩
  else return ⟨md5_data, new_data, md5_size, 0, 0⟩

/-- The rewrite of the text: what is written to the file, and how long that is.
`fresh` is what `malloc` leaves in its buffer. -/
def renameBootloaders (md5_data : List UInt8) (md5_size : ℕ) (md5sum_totalbytes : UInt64)
    (fresh : ℕ → UInt8) : C (List UInt8 × ℕ) := do
  let size := (md5_size + 1024) % 2 ^ 32
  let r ← startRewrite md5_data md5_size size md5sum_totalbytes ((List.range size).map fresh)
  let r ← renameLoop (md5_size + 1) 0 r
  let rest ← loadN r.md5_data r.s (md5_size - r.s)
  let new_data ← copyInto r.new_data r.d rest
  let written ← loadN new_data 0 r.new_size
  return (written, r.new_size)

/-! ## The renamed text -/

/-- The line ends with the path of a bootloader, in upper or lower case. -/
def NamesBootloader (l : List UInt8) : Prop :=
  ∃ archname ∈ efiArchname.tail,
    text " ./efi/boot/" ++ bootloaderName archname <:+ l.map asciiLower

instance (l : List UInt8) : Decidable (NamesBootloader l) :=
  inferInstanceAs (Decidable (∃ _ ∈ _, _))

/-- `_original` in front of the `.efi` of a bootloader -/
def insertOriginal (l : List UInt8) : List UInt8 :=
  if NamesBootloader l then
    l.take (l.length - 4) ++ (text "_original" ++ l.drop (l.length - 4))
  else l

/-- The text with `_original` in each of its lines that names a bootloader -/
def withOriginals (t : List UInt8) : List UInt8 :=
  unlines lf ((cutLines lf t).1.map insertOriginal) ++ insertOriginal (cutLines lf t).2

def headerText (md5sum_totalbytes : UInt64) : List UInt8 :=
  if md5sum_totalbytes ≠ 0 then totalbytesLine md5sum_totalbytes else []

/-! ## Names -/

/-- The text at an offset begins like the path of a bootloader. -/
def BootAt (t : List UInt8) (p : ℕ) : Prop :=
  Occurs (text " ./efi/boot/boot") (t.map asciiLower) p

instance (t : List UInt8) : DecidablePred (BootAt t) :=
  fun p => inferInstanceAs (Decidable (Occurs _ _ p))

/-- The line ends with the name of a bootloader, behind the twelve characters
at an offset. -/
def NamedFrom (l : List UInt8) (i : ℕ) : Prop :=
  ∃ archname ∈ efiArchname.tail,
    (l.drop (i + 12)).map asciiLower = bootloaderName archname

instance (l : List UInt8) (i : ℕ) : Decidable (NamedFrom l i) :=
  inferInstanceAs (Decidable (∃ _ ∈ _, _))

theorem bootNeedle_eq : ∃ rest : List UInt8, space ∉ rest ∧ rest.length = 15 ∧
    text " ./efi/boot/boot" = space :: rest :=
  ⟨text "./efi/boot/boot", by decide, by decide, by decide⟩

theorem lf_notMem_bootNeedle : lf ∉ text " ./efi/boot/boot" := by decide

theorem bootloaderName_spec : ∀ archname ∈ efiArchname.tail,
    (bootloaderName archname).map asciiLower = bootloaderName archname ∧
    lf ∉ bootloaderName archname ∧ space ∉ bootloaderName archname ∧
    text " ./efi/boot/boot" <+: text " ./efi/boot/" ++ bootloaderName archname ∧
    11 ≤ (bootloaderName archname).length ∧
    (bootloaderName archname).length ≤ 19 := by
  decide

theorem exists_longest_name :
    ∃ archname ∈ efiArchname.tail, (bootloaderName archname).length = 19 := by
  decide

theorem efiArchname_nodup : efiArchname.tail.Nodup := by decide

theorem bootloaderName_inj {a b : List UInt8} (h : bootloaderName a = bootloaderName b) :
    a = b :=
  List.append_cancel_right (List.append_cancel_left h)

theorem BootAt.le_length {t : List UInt8} {p : ℕ} (h : BootAt t p) : p + 16 ≤ t.length := by
  obtain ⟨rest, -, hlen, heq⟩ := bootNeedle_eq
  have hle := @Occurs.le_length _ _ _ _ (by rw [heq]; exact List.cons_ne_nil _ _) h
  rwa [heq, List.length_cons, hlen, List.length_map] at hle

theorem BootAt.apart {t : List UInt8} {p q : ℕ} (hp : BootAt t p) (hq : BootAt t q)
    (hlt : p < q) : p + 16 ≤ q := by
  obtain ⟨rest, hspace, hlen, heq⟩ := bootNeedle_eq
  rw [BootAt, heq] at hp hq
  have hle := hp.apart hspace hq hlt
  rwa [List.length_cons, hlen] at hle

theorem bootAt_line {pre l tail : List UInt8} (htail : ∀ c ∈ tail.head?, c = lf) {i : ℕ}
    (hi : i ≤ l.length) : BootAt (pre ++ (l ++ tail)) (pre.length + i) ↔ BootAt l i := by
  have hdrop : ((pre ++ (l ++ tail)).map asciiLower).drop (pre.length + i)
      = (l.map asciiLower).drop i ++ tail.map asciiLower := by
    rw [← List.map_drop, ← List.drop_drop, List.drop_left,
      List.drop_append_of_le_length hi, List.map_append, List.map_drop]
  rw [BootAt, BootAt, Occurs, Occurs, hdrop]
  refine ⟨prefix_of_prefix_append fun c hc => ?_, fun h => h.trans (List.prefix_append ..)⟩
  rw [List.head?_map] at hc
  obtain ⟨d, hd, rfl⟩ := Option.map_eq_some_iff.mp hc
  rw [htail d hd]
  exact lf_notMem_bootNeedle

theorem namesBootloader_iff {l : List UInt8} :
    NamesBootloader l ↔ ∃ i, BootAt l i ∧ NamedFrom l i := by
  constructor
  · rintro ⟨a, ha, front, hfront⟩
    obtain ⟨-, -, -, hneedle, -, -⟩ := bootloaderName_spec a ha
    have hdrop : (l.map asciiLower).drop front.length
        = text " ./efi/boot/" ++ bootloaderName a := by
      rw [← hfront, List.drop_left]
    refine ⟨front.length, ?_, a, ha, ?_⟩
    · rw [BootAt, Occurs, hdrop]
      exact hneedle
    · have htwelve : (text " ./efi/boot/").length = 12 := by decide
      rw [List.map_drop, ← List.drop_drop, hdrop, List.drop_left' htwelve]
  · rintro ⟨i, hboot, a, ha, hname⟩
    refine ⟨a, ha, (l.map asciiLower).take i, ?_⟩
    have hfront : text " ./efi/boot/boot" = text " ./efi/boot/" ++ text "boot" := by
      decide
    have htwelve : (text " ./efi/boot/").length = 12 := by decide
    obtain ⟨rest, hrest⟩ := hboot
    rw [List.map_drop, ← List.drop_drop, ← hrest, hfront, List.append_assoc,
      List.drop_left' htwelve] at hname
    rw [← hname, ← List.append_assoc, ← List.append_assoc, List.append_assoc _ _ (text "boot"),
      ← hfront, List.append_assoc, hrest, List.take_append_drop]

/-- Behind a name the line has no other path. -/
theorem NamedFrom.last {l : List UInt8} {i j : ℕ} (hi : BootAt l i) (hname : NamedFrom l i)
    (hj : BootAt l j) : j ≤ i := by
  by_contra hlt
  have hapart := hi.apart hj (by omega)
  have hlen := hj.le_length
  obtain ⟨a, ha, hname⟩ := hname
  obtain ⟨-, -, hspace, -⟩ := bootloaderName_spec a ha
  obtain ⟨rest, -, -, hneedle⟩ := bootNeedle_eq
  refine hspace ?_
  rw [← hname, List.map_drop]
  have hdrop : (l.map asciiLower).drop j
      = ((l.map asciiLower).drop (i + 12)).drop (j - (i + 12)) := by
    rw [List.drop_drop]
    congr 1
    omega
  rw [BootAt, Occurs, hneedle, hdrop] at hj
  exact List.mem_of_mem_drop (hj.subset List.mem_cons_self)

/-! ## A match -/

section Match

variable {r r' : Rewrite} {p : ℕ}

theorem copyRenamed_size {stop s : ℕ} (hs : s + 4 ≤ stop) (hstop : stop < 2 ^ 32) :
    (stop - 4 + 2 ^ 32 - s) % 2 ^ 32 = stop - 4 - s := by
  omega

/-- The character at the end of the name is not part of what is copied. -/
theorem copyRenamed_patched {A B : List UInt8} (c : UInt8) (hs : r.s + 4 ≤ A.length)
    (hlen : A.length < 2 ^ 32) :
    copyRenamed A.length { r with md5_data := A ++ c :: B } = (do
      let new_data ← copyInto r.new_data r.d ((A.drop r.s).take (A.length - 4 - r.s))
      let new_data ← copyInto new_data (r.d + (A.length - 4 - r.s))
        (text "_original.efi\n" ++ [nul])
      return ⟨A ++ c :: B, new_data, (r.new_size + 9) % 2 ^ 32,
        r.d + (A.length - 4 - r.s) + 14, A.length + 1⟩) := by
  have hload : loadN (A ++ c :: B) r.s (A.length - 4 - r.s)
      = .ok ((A.drop r.s).take (A.length - 4 - r.s)) := by
    rw [loadN_of_le (by rw [List.length_append, List.length_cons]; omega),
      List.drop_append_of_le_length (by omega),
      List.take_append_of_le_length (by rw [List.length_drop]; omega)]
  simp only [copyRenamed, copyRenamed_size hs hlen, hload, C.ok_bind]

/-- Where no line feed is at the end of a name -/
theorem renameArch_skip {a : List UInt8} {c : UInt8}
    (hc : r.md5_data[p + 12 + (bootloaderName a).length]? = some c) (hne : c ≠ lf) :
    renameArch p r a = .ok r := by
  simp only [renameArch, load, hc, C.ok_bind]
  rw [if_pos hne]
  rfl

/-- What ends where a name would end is compared with it. -/
theorem renameArch_break {a A B : List UInt8} (hmem : r.md5_data = A ++ lf :: B)
    (hnul : nul ∉ A) (hstop : A.length = p + 12 + (bootloaderName a).length)
    (hlen : A.length < 2 ^ 32)
    (hs : lstrcmpi (A.drop (p + 12)) (bootloaderName a) = true → r.s + 4 ≤ A.length) :
    renameArch p r a = if lstrcmpi (A.drop (p + 12)) (bootloaderName a)
      then copyRenamed A.length r else .ok r := by
  have hname : cstrAt (A ++ nul :: B) (p + 12) = .ok (A.drop (p + 12)) :=
    cstrAt_text hnul B (by omega)
  simp only [renameArch, hmem, ← hstop, load_append_cons, C.ok_bind, ne_eq,
    not_true_eq_false, if_false, store_append_cons, hname]
  split
  case isTrue heq =>
      have hself : r = { r with md5_data := A ++ lf :: B } := by rw [← hmem]
      rw [copyRenamed_patched nul (hs heq) hlen]
      conv_rhs => rw [hself, copyRenamed_patched lf (hs heq) hlen]
      cases copyInto r.new_data r.d ((A.drop r.s).take (A.length - 4 - r.s)) with
      | error e => rfl
      | ok new_data =>
          rw [C.ok_bind, C.ok_bind]
          cases copyInto new_data (r.d + (A.length - 4 - r.s))
              (text "_original.efi\n" ++ [nul]) with
          | error e => rfl
          | ok new_data => simp
  case isFalse heq =>
      rw [C.ok_bind, store_append_cons, C.ok_bind, ← hmem]
      rfl

/-- What a copy makes of the variables -/
structure Copied (t : List UInt8) (stop : ℕ) (r r' : Rewrite) : Prop where
  md5_data : r'.md5_data = r.md5_data
  length : r'.new_data.length = r.new_data.length
  room : r'.d + 1 ≤ r'.new_data.length
  d : r'.d = r.d + (stop - 4 - r.s) + 14
  s : r'.s = stop + 1
  new_size : r'.new_size = (r.new_size + 9) % 2 ^ 32
  written : r'.new_data.take r'.d = r.new_data.take r.d ++
    ((t.drop r.s).take (stop - 4 - r.s) ++ text "_original.efi\n")

theorem copyInto_ok {block chunk block' : List UInt8} {i : ℕ}
    (h : copyInto block i chunk = .ok block') :
    i + chunk.length ≤ block.length ∧ block'.length = block.length ∧
      ∀ k ≤ chunk.length, block'.take (i + k) = block.take i ++ chunk.take k := by
  rw [copyInto] at h
  split at h
  case isTrue hle =>
      cases h
      refine ⟨hle, ?_, fun k hk => ?_⟩
      · simp only [List.length_append, List.length_take, List.length_drop]
        omega
      · have hlen : (block.take i).length = i := List.length_take_of_le (by omega)
        rw [List.take_append, hlen, List.take_of_length_le (by omega),
          Nat.add_sub_cancel_left, List.take_append_of_le_length hk]
  case isFalse => cases h

section

variable {t : List UInt8} {stop : ℕ}

theorem copied_length (hs : r.s + 4 ≤ stop) (hstop : stop ≤ t.length) :
    ((t.drop r.s).take (stop - 4 - r.s)).length = stop - 4 - r.s := by
  rw [List.length_take, List.length_drop]
  omega

theorem original_length : (text "_original.efi\n").length = 14 := by decide

theorem load_line (hmem : r.md5_data = t ++ [nul]) (hs : r.s + 4 ≤ stop)
    (hstop : stop ≤ t.length) :
    loadN r.md5_data r.s (stop - 4 - r.s) = .ok ((t.drop r.s).take (stop - 4 - r.s)) := by
  rw [hmem, loadN_of_le (by rw [List.length_append]; omega),
    List.drop_append_of_le_length (by omega),
    List.take_append_of_le_length (by rw [List.length_drop]; omega)]

theorem copyRenamed_copied (hmem : r.md5_data = t ++ [nul]) (hs : r.s + 4 ≤ stop)
    (hstop : stop ≤ t.length) (hlen : t.length < 2 ^ 32)
    (hrun : copyRenamed stop r = .ok r') : Copied t stop r r' := by
  simp only [copyRenamed, copyRenamed_size hs (by omega), load_line hmem hs hstop,
    C.ok_bind] at hrun
  obtain ⟨first, hfirst, hrun⟩ := C.bind_eq_ok.mp hrun
  obtain ⟨second, hsecond, hrun⟩ := C.bind_eq_ok.mp hrun
  cases hrun
  have hline := @copied_length r t stop hs hstop
  obtain ⟨-, hlen₁, htake₁⟩ := copyInto_ok hfirst
  obtain ⟨hroom, hlen₂, htake₂⟩ := copyInto_ok hsecond
  have horiginal := original_length
  rw [List.length_append, List.length_singleton, horiginal] at hroom
  refine ⟨rfl, hlen₂.trans hlen₁, ?_, rfl, rfl, rfl, ?_⟩
  · exact hlen₂ ▸ hroom
  · have hfront := htake₁ _ le_rfl
    have hback := htake₂ 14 (by rw [List.length_append, horiginal]; omega)
    rw [hline, List.take_of_length_le hline.le] at hfront
    rw [List.take_append_of_le_length horiginal.ge,
      List.take_of_length_le horiginal.le, hfront, List.append_assoc] at hback
    exact hback

/-- There has to be room for the line, its new end and the NUL of `strcpy`. -/
theorem exists_copyRenamed (hmem : r.md5_data = t ++ [nul]) (hs : r.s + 4 ≤ stop)
    (hstop : stop ≤ t.length) (hlen : t.length < 2 ^ 32)
    (hroom : r.d + (stop - 4 - r.s) + 15 ≤ r.new_data.length) :
    ∃ r', copyRenamed stop r = .ok r' := by
  have hline := @copied_length r t stop hs hstop
  have horiginal := original_length
  obtain ⟨first, hfirst⟩ : ∃ first, copyInto r.new_data r.d
      ((t.drop r.s).take (stop - 4 - r.s)) = .ok first :=
    ⟨_, copyInto_of_le (by omega)⟩
  have hlen₁ := (copyInto_ok hfirst).2.1
  obtain ⟨second, hsecond⟩ : ∃ second, copyInto first (r.d + (stop - 4 - r.s))
      (text "_original.efi\n" ++ [nul]) = .ok second :=
    ⟨_, copyInto_of_le (by rw [List.length_append, horiginal, List.length_singleton]; omega)⟩
  simp only [copyRenamed, copyRenamed_size hs (show stop < 2 ^ 32 by omega),
    load_line hmem hs hstop, C.ok_bind, hfirst, hsecond]
  exact ⟨_, rfl⟩

end

/-! ## A match in a line -/

/-- A text with one of its lines, which has a line feed behind it or is the last
one. -/
structure HasLine (t pre l tail : List UInt8) : Prop where
  eq : t = pre ++ (l ++ tail)
  open_or : tail = [] ∨ ∃ rest, tail = lf :: rest
  no_break : lf ∉ l
  no_nul : nul ∉ t

namespace HasLine

variable {t pre l tail : List UInt8} {i : ℕ}

theorem head (h : HasLine t pre l tail) : ∀ c ∈ tail.head?, c = lf := by
  intro c hc
  rcases h.open_or with rfl | ⟨rest, rfl⟩
  · cases hc
  · cases hc
    rfl

theorem length (h : HasLine t pre l tail) :
    t.length = pre.length + (l.length + tail.length) := by
  rw [h.eq, List.length_append, List.length_append]

/-- A line feed that ends a name ends the line. -/
theorem name_iff (h : HasLine t pre l tail) {a A B : List UInt8}
    (ha : a ∈ efiArchname.tail) (hi : i + 16 ≤ l.length) (ht : t = A ++ lf :: B)
    (hA : A.length = pre.length + i + 12 + (bootloaderName a).length) :
    lstrcmpi (A.drop (pre.length + i + 12)) (bootloaderName a) = true ↔
      (l.drop (i + 12)).map asciiLower = bootloaderName a := by
  obtain ⟨hlower, hlf, -, -, -, -⟩ := bootloaderName_spec a ha
  rw [lstrcmpi, decide_eq_true_eq, hlower]
  have heq : pre ++ (l ++ tail) = A ++ lf :: B := h.eq.symm.trans ht
  have hdrop : l ++ tail = A.drop pre.length ++ lf :: B := by
    have hd := congrArg (List.drop pre.length) heq
    rwa [List.drop_left, List.drop_append_of_le_length (by omega)] at hd
  have hlen : (A.drop pre.length).length = i + 12 + (bootloaderName a).length := by
    rw [List.length_drop]
    omega
  have hsplit : A.drop (pre.length + i + 12) = (A.drop pre.length).drop (i + 12) := by
    rw [List.drop_drop]
    rfl
  rw [hsplit]
  generalize A.drop pre.length = w at hdrop hlen
  rcases List.append_eq_append_iff.mp hdrop with ⟨w', rfl, htail⟩ | ⟨l', rfl, htail⟩
  · cases w' with
    | nil => rw [List.append_nil]
    | cons c w' =>
        -- a line feed would be in the name
        have hc : c = lf := h.head c (htail ▸ rfl)
        refine iff_of_false (fun hname => hlf ?_) fun hname => ?_
        · rw [← hname, List.drop_append_of_le_length (by omega), List.map_append, hc]
          exact List.mem_append_right _ List.mem_cons_self
        · have hl := congrArg List.length hname
          rw [List.length_map, List.length_drop] at hl
          rw [List.length_append, List.length_cons] at hlen
          omega
  · cases l' with
    | nil => rw [List.append_nil]
    | cons c l' =>
        have hc : lf = c := (List.cons.inj htail).1
        exact absurd (hc ▸ List.mem_append_right w List.mem_cons_self) h.no_break

/-- A name at the end of a line ends where the line does. -/
theorem stop_of_named {a : List UInt8} (hi : i + 16 ≤ l.length)
    (hname : (l.drop (i + 12)).map asciiLower = bootloaderName a) :
    pre.length + i + 12 + (bootloaderName a).length = pre.length + l.length := by
  rw [← hname, List.length_map, List.length_drop]
  omega

/-- The last line has no line feed in it or behind it. -/
theorem tail_ne_nil (h : HasLine t pre l tail) {stop : ℕ} (hle : pre.length ≤ stop)
    (hstop : t[stop]? = some lf) : tail ≠ [] := by
  rintro rfl
  rw [h.eq, List.append_nil, List.getElem?_append_right hle] at hstop
  exact h.no_break (List.mem_of_getElem? hstop)

theorem renameArch_at_break (h : HasLine t pre l tail) {a : List UInt8}
    (ha : a ∈ efiArchname.tail) (hi : i + 16 ≤ l.length)
    (hmem : r.md5_data = t ++ [nul]) (hlen : t.length < 2 ^ 32)
    (hs : (l.drop (i + 12)).map asciiLower = bootloaderName a → r.s ≤ pre.length)
    (hstop : t[pre.length + i + 12 + (bootloaderName a).length]? = some lf) :
    renameArch (pre.length + i) r a =
      if (l.drop (i + 12)).map asciiLower = bootloaderName a
      then copyRenamed (pre.length + l.length) r else .ok r := by
  obtain ⟨hlt, hget⟩ := List.getElem?_eq_some_iff.mp hstop
  have ht : t = t.take (pre.length + i + 12 + (bootloaderName a).length) ++
      lf :: t.drop (pre.length + i + 12 + (bootloaderName a).length + 1) := by
    rw [← hget, ← List.drop_eq_getElem_cons hlt, List.take_append_drop]
  have hA := List.length_take_of_le hlt.le
  generalize t.take (pre.length + i + 12 + (bootloaderName a).length) = A at ht hA
  generalize t.drop (pre.length + i + 12 + (bootloaderName a).length + 1) = B at ht
  have hname := h.name_iff ha hi ht hA
  have hnul : nul ∉ A := fun hin => h.no_nul (ht ▸ List.mem_append_left _ hin)
  have hbreak : r.md5_data = A ++ lf :: (B ++ [nul]) := by
    rw [hmem, ht, List.append_assoc, List.cons_append]
  have hroom : lstrcmpi (A.drop (pre.length + i + 12)) (bootloaderName a) = true →
      r.s + 4 ≤ A.length := by
    intro heq
    have hle := hs (hname.mp heq)
    omega
  rw [renameArch_break hbreak hnul hA (by omega) hroom]
  by_cases heq : (l.drop (i + 12)).map asciiLower = bootloaderName a
  · rw [if_pos (hname.mpr heq), if_pos heq, hA, stop_of_named hi heq]
  · rw [if_neg (mt hname.mp heq), if_neg heq]

/-- **A name is tried** at a match in a line: it has to end within the text, and
the line is copied if the name is there. -/
theorem renameArch_ok_iff (h : HasLine t pre l tail) {a : List UInt8}
    (ha : a ∈ efiArchname.tail) (hi : i + 16 ≤ l.length)
    (hmem : r.md5_data = t ++ [nul]) (hlen : t.length < 2 ^ 32)
    (hs : (l.drop (i + 12)).map asciiLower = bootloaderName a → r.s ≤ pre.length) :
    renameArch (pre.length + i) r a = .ok r' ↔
      pre.length + i + 12 + (bootloaderName a).length ≤ t.length ∧
      if tail ≠ [] ∧ (l.drop (i + 12)).map asciiLower = bootloaderName a
      then copyRenamed (pre.length + l.length) r = .ok r' else r' = r := by
  have hkeep : (Except.ok r : C Rewrite) = .ok r' ↔ r' = r := by
    rw [Except.ok.injEq]
    exact eq_comm
  rcases Nat.lt_or_ge t.length (pre.length + i + 12 + (bootloaderName a).length) with hgt | hle
  · have hnone : r.md5_data[pre.length + i + 12 + (bootloaderName a).length]? = none := by
      rw [hmem, List.getElem?_eq_none_iff, List.length_append, List.length_singleton]
      omega
    refine iff_of_false (fun hrun => ?_) fun hrun => absurd hrun.1 (by omega)
    simp only [renameArch, load, hnone] at hrun
    cases hrun
  · rw [and_iff_right hle]
    by_cases hbreak : t[pre.length + i + 12 + (bootloaderName a).length]? = some lf
    · rw [h.renameArch_at_break ha hi hmem hlen hs hbreak]
      have htail := h.tail_ne_nil (by omega) hbreak
      by_cases heq : (l.drop (i + 12)).map asciiLower = bootloaderName a
      · rw [if_pos heq, if_pos ⟨htail, heq⟩]
      · rw [if_neg heq, if_neg fun hand => heq hand.2, hkeep]
    · -- the NUL behind the text, or a character of it
      obtain ⟨c, hc, hne⟩ : ∃ c, r.md5_data[pre.length + i + 12 +
          (bootloaderName a).length]? = some c ∧ c ≠ lf := by
        rw [hmem]
        rcases Nat.eq_or_lt_of_le hle with heq | hlt
        · exact ⟨nul, by rw [heq, List.getElem?_concat_length], by decide⟩
        · refine ⟨_, by rw [List.getElem?_append_left hlt, List.getElem?_eq_getElem hlt], ?_⟩
          rintro heq
          exact hbreak (heq ▸ List.getElem?_eq_getElem hlt)
      rw [renameArch_skip hc hne, hkeep, if_neg]
      rintro ⟨htail, hname⟩
      obtain ⟨rest, rfl⟩ := h.open_or.resolve_left htail
      refine hbreak ?_
      rw [stop_of_named hi hname, h.eq, List.getElem?_append_right (Nat.le_add_right ..),
        Nat.add_sub_cancel_left, List.getElem?_append_right le_rfl, Nat.sub_self]
      rfl

/-- Names that are not there leave all as it is. -/
theorem foldlM_renameArch_none (h : HasLine t pre l tail) (hi : i + 16 ≤ l.length)
    (hmem : r.md5_data = t ++ [nul]) (hlen : t.length < 2 ^ 32) :
    ∀ {as : List (List UInt8)}, (∀ a ∈ as, a ∈ efiArchname.tail) →
      (tail ≠ [] → ∀ a ∈ as, (l.drop (i + 12)).map asciiLower ≠ bootloaderName a) →
      (∀ a ∈ as, (l.drop (i + 12)).map asciiLower = bootloaderName a →
        r.s ≤ pre.length) →
      (as.foldlM (renameArch (pre.length + i)) r = .ok r' ↔
        (∀ a ∈ as, pre.length + i + 12 + (bootloaderName a).length ≤ t.length) ∧ r' = r)
  | [], _, _, _ => by
      rw [List.foldlM_nil, C.pure_eq, Except.ok.injEq]
      exact ⟨fun heq => ⟨nofun, heq.symm⟩, fun heq => heq.2.symm⟩
  | a :: as, has, hnone, hs => by
      have ih := foldlM_renameArch_none h hi hmem hlen
        (fun b hb => has b (List.mem_cons_of_mem a hb))
        (fun htail b hb => hnone htail b (List.mem_cons_of_mem a hb))
        (fun b hb => hs b (List.mem_cons_of_mem a hb))
      have hturn (r₁ : Rewrite) := @renameArch_ok_iff r r₁ _ _ _ _ _ h a
        (has a List.mem_cons_self) hi hmem hlen (hs a List.mem_cons_self)
      have hneg : ¬(tail ≠ [] ∧ (l.drop (i + 12)).map asciiLower = bootloaderName a) :=
        fun hand => hnone hand.1 a List.mem_cons_self hand.2
      simp only [if_neg hneg] at hturn
      rw [List.foldlM_cons, C.bind_eq_ok, List.forall_mem_cons]
      simp only [hturn]
      constructor
      · rintro ⟨_, ⟨hfits, rfl⟩, hrun⟩
        exact ⟨⟨hfits, (ih.mp hrun).1⟩, (ih.mp hrun).2⟩
      · rintro ⟨⟨hfits, hrest⟩, rfl⟩
        exact ⟨r', ⟨hfits, rfl⟩, ih.mpr ⟨hrest, rfl⟩⟩

/-- The longest name decides whether all of them end within the text. -/
theorem forall_name_length {t : List UInt8} {p : ℕ} :
    (∀ a ∈ efiArchname.tail, p + 12 + (bootloaderName a).length ≤ t.length) ↔
      p + 31 ≤ t.length := by
  constructor
  · intro hall
    obtain ⟨a, ha, hlen⟩ := exists_longest_name
    have hle := hall a ha
    omega
  · intro hle a ha
    have hlen := (bootloaderName_spec a ha).2.2.2.2.2
    omega

/-- **A turn of the search** copies the line if a name is at its end. -/
theorem renameAt_ok_iff (h : HasLine t pre l tail) (hi : i + 16 ≤ l.length)
    (hmem : r.md5_data = t ++ [nul]) (hlen : t.length < 2 ^ 32) (hs : r.s ≤ pre.length) :
    renameAt r (pre.length + i) = .ok r' ↔
      pre.length + i + 31 ≤ t.length ∧
      if tail ≠ [] ∧ NamedFrom l i
      then copyRenamed (pre.length + l.length) r = .ok r' else r' = r := by
  rw [← forall_name_length, renameAt]
  by_cases hnamed : tail ≠ [] ∧ NamedFrom l i
  · rw [if_pos hnamed]
    obtain ⟨htail, a, ha, hname⟩ := hnamed
    obtain ⟨as, bs, has⟩ := List.append_of_mem ha
    have hnodup : (as ++ a :: bs).Nodup := has ▸ efiArchname_nodup
    have hin : ∀ b ∈ as ++ a :: bs, b ∈ efiArchname.tail := fun b hb => has ▸ hb
    -- no other name is the same
    have hother : ∀ b ∈ as ++ bs, (l.drop (i + 12)).map asciiLower ≠ bootloaderName b := by
      intro b hb heq
      obtain rfl : a = b := bootloaderName_inj (hname.symm.trans heq)
      exact (List.nodup_middle.mp hnodup).notMem hb
    have has' : ∀ b ∈ as, b ∈ as ++ a :: bs := fun b hb => List.mem_append_left _ hb
    have hbs' : ∀ b ∈ bs, b ∈ as ++ a :: bs :=
      fun b hb => List.mem_append_right _ (List.mem_cons_of_mem a hb)
    have hfront (r₁ : Rewrite) := @foldlM_renameArch_none r r₁ _ _ _ _ _ h hi hmem hlen as
      (fun b hb => hin b (has' b hb)) (fun _ b hb => hother b (List.mem_append_left _ hb))
      fun _ _ _ => hs
    have hturn (r₁ : Rewrite) := @renameArch_ok_iff r r₁ _ _ _ _ _ h a ha hi hmem hlen fun _ => hs
    simp only [if_pos (show tail ≠ [] ∧ _ from ⟨htail, hname⟩)] at hturn
    rw [has, List.foldlM_append, C.bind_eq_ok, List.forall_mem_append, List.forall_mem_cons]
    simp only [hfront, List.foldlM_cons, C.bind_eq_ok]
    have hback (r₁ : Rewrite) (hcopy : copyRenamed (pre.length + l.length) r = .ok r₁) := by
      have hcopied := copyRenamed_copied hmem (by omega) (by rw [h.length]; omega) hlen hcopy
      exact @foldlM_renameArch_none r₁ r' _ _ _ _ _ h hi (hcopied.md5_data.trans hmem) hlen bs
        (fun b hb => hin b (hbs' b hb)) (fun _ b hb => hother b (List.mem_append_right _ hb))
        fun b hb heq => absurd heq (hother b (List.mem_append_right _ hb))
    constructor
    · rintro ⟨_, ⟨hfits, rfl⟩, r₁, hrun, hafter⟩
      obtain ⟨hfit, hcopy⟩ := (hturn r₁).mp hrun
      obtain ⟨hrest, rfl⟩ := (hback r₁ hcopy).mp hafter
      exact ⟨⟨hfits, hfit, hrest⟩, hcopy⟩
    · rintro ⟨⟨hfits, hfit, hrest⟩, hcopy⟩
      exact ⟨r, ⟨hfits, rfl⟩, r', (hturn r').mpr ⟨hfit, hcopy⟩,
        (hback r' hcopy).mpr ⟨hrest, rfl⟩⟩
  · have hnone : tail ≠ [] → ∀ a ∈ efiArchname.tail,
        (l.drop (i + 12)).map asciiLower ≠ bootloaderName a :=
      fun htail a ha hname => hnamed ⟨htail, a, ha, hname⟩
    rw [if_neg hnamed]
    exact h.foldlM_renameArch_none hi hmem hlen (fun _ ha => ha) hnone fun _ _ _ => hs

/-! ## A line -/

theorem mem_places_line (h : HasLine t pre l tail) {b p : ℕ}
    (hb : b ≤ pre.length + l.length + 1) (hp : p ∈ places (BootAt t) pre.length b) :
    ∃ j, p = pre.length + j ∧ BootAt l j := by
  obtain ⟨⟨hle, hlt⟩, hboot⟩ := mem_places.mp hp
  refine ⟨p - pre.length, by omega, ?_⟩
  rw [h.eq, ← Nat.add_sub_cancel' hle] at hboot
  exact (bootAt_line h.head (by omega)).mp hboot

/-- Matches without a name leave all as it is. -/
theorem foldlM_renameAt_none (h : HasLine t pre l tail) (hmem : r.md5_data = t ++ [nul])
    (hlen : t.length < 2 ^ 32) (hs : r.s ≤ pre.length) : ∀ {ps : List ℕ},
    (∀ p ∈ ps, ∃ j, p = pre.length + j ∧ BootAt l j ∧ ¬(tail ≠ [] ∧ NamedFrom l j)) →
      (ps.foldlM renameAt r = .ok r' ↔ (∀ p ∈ ps, p + 31 ≤ t.length) ∧ r' = r)
  | [], _ => by
      rw [List.foldlM_nil, C.pure_eq, Except.ok.injEq]
      exact ⟨fun heq => ⟨nofun, heq.symm⟩, fun heq => heq.2.symm⟩
  | p :: ps, hps => by
      have ih := foldlM_renameAt_none h hmem hlen hs fun q hq => hps q (List.mem_cons_of_mem p hq)
      obtain ⟨j, rfl, hboot, hnone⟩ := hps p List.mem_cons_self
      have hturn (r₁ : Rewrite) :=
        @renameAt_ok_iff r r₁ _ _ _ _ _ h hboot.le_length hmem hlen hs
      simp only [if_neg hnone] at hturn
      rw [List.foldlM_cons, C.bind_eq_ok, List.forall_mem_cons]
      simp only [hturn]
      constructor
      · rintro ⟨_, ⟨hfits, rfl⟩, hrun⟩
        exact ⟨⟨hfits, (ih.mp hrun).1⟩, (ih.mp hrun).2⟩
      · rintro ⟨⟨hfits, hrest⟩, rfl⟩
        exact ⟨r', ⟨hfits, rfl⟩, ih.mpr ⟨hrest, rfl⟩⟩

/-- **A line** is copied if it names a bootloader. -/
theorem line_ok_iff (h : HasLine t pre l tail) (hmem : r.md5_data = t ++ [nul])
    (hlen : t.length < 2 ^ 32) (hs : r.s ≤ pre.length) {b : ℕ}
    (hle : pre.length + l.length ≤ b) (hb : b ≤ pre.length + l.length + 1) :
    (places (BootAt t) pre.length b).foldlM renameAt r = .ok r' ↔
      (∀ p ∈ places (BootAt t) pre.length b, p + 31 ≤ t.length) ∧
      if tail ≠ [] ∧ NamesBootloader l
      then copyRenamed (pre.length + l.length) r = .ok r' else r' = r := by
  by_cases hnames : tail ≠ [] ∧ NamesBootloader l
  · rw [if_pos hnames]
    obtain ⟨htail, hnames⟩ := hnames
    obtain ⟨i, hboot, hnamed⟩ := namesBootloader_iff.mp hnames
    have hi := hboot.le_length
    -- the name is at the last of the places
    have hsplit : places (BootAt t) pre.length b
        = places (BootAt t) pre.length (pre.length + i) ++ [pre.length + i] := by
      have hat : BootAt t (pre.length + i) := by
        rw [h.eq]
        exact (bootAt_line h.head (by omega)).mpr hboot
      have hlast : places (BootAt t) (pre.length + i + 1) b = [] := by
        refine places_eq_nil fun q hq hlt hq' => ?_
        obtain ⟨j, rfl, hj⟩ :=
          h.mem_places_line hb (mem_places.mpr ⟨⟨by omega, hlt⟩, hq'⟩)
        have hji := hnamed.last hboot hj
        omega
      have hone : places (BootAt t) (pre.length + i) b
          = (pre.length + i) :: places (BootAt t) (pre.length + i + 1) b :=
        places_first ⟨le_rfl, hat, fun q hq hlt => absurd hq (by omega)⟩ Nat.one_pos
          (fun q hq hlt => absurd hq (by omega)) (by omega)
      rw [places_append (Nat.le_add_right ..) (show pre.length + i ≤ b by omega), hone, hlast]
    have hfront (r₁ : Rewrite) := @foldlM_renameAt_none r r₁ _ _ _ _ h hmem hlen hs
      (places (BootAt t) pre.length (pre.length + i)) fun q hq => by
        obtain ⟨j, rfl, hj⟩ := h.mem_places_line (by omega) hq
        refine ⟨j, rfl, hj, fun hand => ?_⟩
        have hij := hand.2.last hj hboot
        have hlt := (mem_places.mp hq).1.2
        omega
    have hturn (r₁ : Rewrite) := @renameAt_ok_iff r r₁ _ _ _ _ _ h hi hmem hlen hs
    simp only [if_pos (show tail ≠ [] ∧ _ from ⟨htail, hnamed⟩)] at hturn
    rw [hsplit, List.foldlM_append, C.bind_eq_ok, List.forall_mem_append]
    simp only [hfront, List.foldlM_cons, List.foldlM_nil, C.bind_eq_ok, C.pure_eq,
      Except.ok.injEq, List.forall_mem_singleton]
    constructor
    · rintro ⟨_, ⟨hfits, rfl⟩, r₁, hrun, rfl⟩
      obtain ⟨hfit, hcopy⟩ := (hturn r₁).mp hrun
      exact ⟨⟨hfits, hfit⟩, hcopy⟩
    · rintro ⟨⟨hfits, hfit⟩, hcopy⟩
      exact ⟨r, ⟨hfits, rfl⟩, r', (hturn r').mpr ⟨hfit, hcopy⟩, rfl⟩
  · rw [if_neg hnames]
    refine h.foldlM_renameAt_none hmem hlen hs fun q hq => ?_
    obtain ⟨j, rfl, hj⟩ := h.mem_places_line hb hq
    exact ⟨j, rfl, hj, fun hand => hnames ⟨hand.1, namesBootloader_iff.mpr ⟨j, hj, hand.2⟩⟩⟩

end HasLine

/-! ## The search -/

theorem renameArch_md5_data (p : ℕ) (r : Rewrite) (a : List UInt8) :
    Ensures (renameArch p r a) fun r' => r'.md5_data = r.md5_data := by
  refine (load_ensures _ _).bind fun c hc => .ite (fun _ => .pure rfl) fun hne => ?_
  rw [ne_eq, not_not] at hne
  subst hne
  obtain ⟨hlt, hget⟩ := List.getElem?_eq_some_iff.mp hc
  refine (store_ensures _ _ _).bind fun patched hpatched => .bind_eq fun name _ => ?_
  have hrestore : Ensures
      (if lstrcmpi name (bootloaderName a) then
        copyRenamed (p + 12 + (bootloaderName a).length) { r with md5_data := patched }
      else .ok { r with md5_data := patched })
      fun r₁ => r₁.md5_data = patched := by
    refine .ite (fun _ => ?_) fun _ => .pure rfl
    exact .bind_eq fun _ _ => .bind_eq fun _ _ => .bind_eq fun _ _ => .pure rfl
  refine hrestore.bind fun r₁ hr₁ => (store_ensures _ _ _).bind fun restored hrestored => .pure ?_
  rw [hrestored.2, hr₁, hpatched.2, List.set_set, ← hget, List.set_getElem_self]

theorem renameAt_md5_data (r : Rewrite) (p : ℕ) :
    Ensures (renameAt r p) fun r' => r'.md5_data = r.md5_data :=
  @Ensures.foldlM _ _ (fun r' : Rewrite => r'.md5_data = r.md5_data) _
    (fun r₁ a hr₁ => (renameArch_md5_data p r₁ a).mono fun _ h => h.trans hr₁) _ _ rfl

theorem strStrIFrom_text {t : List UInt8} (hnul : nul ∉ t) {off : ℕ} (hoff : off ≤ t.length) :
    (∃ p, strStrIFrom (text " ./efi/boot/boot") (t ++ [nul]) off = .ok (some p) ∧
      IsFirst (BootAt t) off p) ∨
    strStrIFrom (text " ./efi/boot/boot") (t ++ [nul]) off = .ok none ∧
      ∀ i, off ≤ i → ¬BootAt t i := by
  have hlower : (text " ./efi/boot/boot").map asciiLower = text " ./efi/boot/boot" := by
    decide
  have hrun : strStrIFrom (text " ./efi/boot/boot") (t ++ [nul]) off
      = .ok ((firstHit ((text " ./efi/boot/boot").isPrefixOf ·)
        ((t.map asciiLower).drop off)).map (off + ·)) := by
    rw [strStrIFrom, cstrAt_text hnul [] hoff, hlower, C.ok_bind, ← List.map_drop,
      ← firstHit_map]
    rfl
  rw [hrun]
  simp only [Except.ok.injEq]
  exact firstHit_occurs _ _ off

/-- **The search comes by every match**, one after the other. -/
theorem renameLoop_eq {t : List UInt8} (hnul : nul ∉ t) :
    ∀ {fuel a : ℕ} {r : Rewrite}, r.md5_data = t ++ [nul] → a ≤ t.length →
      t.length < a + fuel →
      renameLoop fuel a r = (places (BootAt t) a t.length).foldlM renameAt r
  | 0, a, r, _, ha, hfuel => absurd hfuel (by omega)
  | fuel + 1, a, r, hmem, ha, hfuel => by
      rw [renameLoop, hmem]
      rcases strStrIFrom_text hnul ha with ⟨p, hrun, hfirst⟩ | ⟨hrun, hnone⟩
      · have hle := hfirst.holds.le_length
        have hplaces : places (BootAt t) a t.length
            = p :: places (BootAt t) (p + 12) t.length :=
          places_first hfirst (by decide)
            (fun i hlt hi hboot => absurd (hfirst.holds.apart hboot hlt) (by omega)) (by omega)
        rw [hrun, C.ok_bind, hplaces, List.foldlM_cons]
        dsimp only
        cases hturn : renameAt r p with
        | error e => rfl
        | ok r' =>
            have hmem' := (renameAt_md5_data r p r' hturn).trans hmem
            have hap := hfirst.le
            exact renameLoop_eq hnul hmem' (by omega) (by omega)
      · rw [hrun, C.ok_bind, places_eq_nil fun i hi _ => hnone i hi, List.foldlM_nil]

end Match

/-! ## The lines one after the other -/

def asWritten (l : List UInt8) : List UInt8 :=
  if NamesBootloader l then l.take (l.length - 4) ++ text "_original.efi" else l

theorem NamesBootloader.le_length {l : List UInt8} (h : NamesBootloader l) :
    16 ≤ l.length := by
  obtain ⟨i, hboot, -⟩ := namesBootloader_iff.mp h
  have hle := hboot.le_length
  omega

theorem asWritten_length (l : List UInt8) :
    (asWritten l).length = l.length + 9 * [l].countP (NamesBootloader ·) := by
  have hlen : (text "_original.efi").length = 13 := by decide
  unfold asWritten
  split
  case isTrue h =>
      have hle := h.le_length
      rw [List.length_append, List.length_take, hlen, List.countP_singleton, if_pos (by simpa)]
      omega
  case isFalse h =>
      rw [List.countP_singleton, if_neg (by simpa)]
      omega

theorem unlines_asWritten_length (ls : List (List UInt8)) :
    (unlines lf (ls.map asWritten)).length
      = (unlines lf ls).length + 9 * ls.countP (NamesBootloader ·) := by
  induction ls with
  | nil => rfl
  | cons l ls ih =>
      have hcount : (l :: ls).countP (NamesBootloader ·)
          = [l].countP (NamesBootloader ·) + ls.countP (NamesBootloader ·) :=
        @List.countP_append _ _ [l] ls
      rw [List.map_cons, unlines_cons, unlines_cons, hcount]
      simp only [List.length_append, List.length_cons, asWritten_length, ih]
      omega

/-- The lines that are done are written, up to what is behind the last name. -/
structure Partway (t header : List UInt8) (cap : ℕ) (done : List (List UInt8))
    (r : Rewrite) : Prop where
  md5_data : r.md5_data = t ++ [nul]
  length : r.new_data.length = cap
  d_le : r.d ≤ cap
  s_le : r.s ≤ (unlines lf done).length
  written : r.new_data.take r.d ++ (unlines lf done).drop r.s
    = header ++ unlines lf (done.map asWritten)
  new_size : r.new_size
    = (t.length + header.length + 9 * done.countP (NamesBootloader ·)) % 2 ^ 32
  -- the NUL of `strcpy` was written behind the name of the last line
  room : ∀ l ∈ done.getLast?, NamesBootloader l →
    r.s = (unlines lf done).length ∧ r.d + 1 ≤ cap

namespace Partway

variable {t header : List UInt8} {cap : ℕ} {done : List (List UInt8)} {r r' : Rewrite}

theorem d_eq (h : Partway t header cap done r) :
    r.d = header.length + r.s + 9 * done.countP (NamesBootloader ·) := by
  have hlen := congrArg List.length h.written
  have hd : (r.new_data.take r.d).length = r.d :=
    List.length_take_of_le (h.length ▸ h.d_le)
  have hs := h.s_le
  rw [List.length_append, hd, List.length_drop, List.length_append,
    unlines_asWritten_length] at hlen
  omega

/-- A line without a name is left for the next copy. -/
theorem plain (h : Partway t header cap done r) {l : List UInt8} (hl : ¬NamesBootloader l) :
    Partway t header cap (done ++ [l]) r where
  md5_data := h.md5_data
  length := h.length
  d_le := h.d_le
  s_le := by
    rw [unlines_append, List.length_append]
    exact h.s_le.trans (Nat.le_add_right ..)
  written := by
    rw [unlines_append, List.drop_append_of_le_length h.s_le, ← List.append_assoc, h.written,
      List.map_append, unlines_append, List.map_singleton, asWritten, if_neg hl,
      List.append_assoc]
  new_size := by
    rw [h.new_size, List.countP_append, List.countP_singleton, if_neg (by simpa), Nat.add_zero]
  room l' hl' hnames := by
    rw [List.getLast?_concat] at hl'
    cases hl'
    exact absurd hnames hl

/-- A line with a name is copied, with all that was left. -/
theorem named (h : Partway t header cap done r) {l rest : List UInt8}
    (ht : t = unlines lf done ++ (l ++ lf :: rest)) (hl : NamesBootloader l)
    (hcopy : Copied t ((unlines lf done).length + l.length) r r') :
    Partway t header cap (done ++ [l]) r' := by
  have hend : (unlines lf (done ++ [l])).length = (unlines lf done).length + l.length + 1 := by
    rw [unlines_append, unlines_singleton, List.length_append, List.length_append,
      List.length_singleton, Nat.add_assoc]
  have hlen := hl.le_length
  have hs := h.s_le
  have hroom : r'.d + 1 ≤ cap := (hcopy.room.trans hcopy.length.le).trans h.length.le
  have hline : (t.drop r.s).take ((unlines lf done).length + l.length - 4 - r.s)
      = (unlines lf done).drop r.s ++ l.take (l.length - 4) := by
    rw [ht, List.drop_append_of_le_length hs, List.take_append,
      List.take_of_length_le (by rw [List.length_drop]; omega), List.length_drop,
      List.take_append_of_le_length (by omega)]
    congr 2
    omega
  refine ⟨hcopy.md5_data.trans h.md5_data, hcopy.length.trans h.length, by omega,
    (hcopy.s.trans hend.symm).le, ?_, ?_, fun _ _ _ => ⟨hcopy.s.trans hend.symm, hroom⟩⟩
  · have hnil : (unlines lf (done ++ [l])).drop r'.s = [] :=
      List.drop_of_length_le (hend.trans hcopy.s.symm).le
    have horiginal : text "_original.efi\n" = text "_original.efi" ++ [lf] := by
      decide
    rw [hnil, List.append_nil, hcopy.written, hline, List.map_append, unlines_append,
      List.map_singleton, unlines_singleton, asWritten, if_pos hl, horiginal,
      ← List.append_assoc header, ← h.written]
    simp only [List.append_assoc]
  · rw [hcopy.new_size, h.new_size, List.countP_append, List.countP_singleton,
      if_pos (by simpa)]
    omega

end Partway

section Lines

variable {t header last : List UInt8} {cap : ℕ} {r r' : Rewrite}

theorem hasLine_last {done : List (List UInt8)} (ht : t = unlines lf done ++ last)
    (hnul : nul ∉ t) (hlast : lf ∉ last) : HasLine t (unlines lf done) last [] :=
  ⟨by rw [ht, List.append_nil], .inl rfl, hlast, hnul⟩

theorem text_cons {done ls : List (List UInt8)} {l : List UInt8}
    (ht : t = unlines lf (done ++ l :: ls) ++ last) :
    t = unlines lf done ++ (l ++ lf :: (unlines lf ls ++ last)) := by
  rw [ht, unlines_append, unlines_cons, List.append_assoc, List.append_assoc,
    List.cons_append]

theorem hasLine_cons {done ls : List (List UInt8)} {l : List UInt8}
    (ht : t = unlines lf (done ++ l :: ls) ++ last) (hnul : nul ∉ t) (hl : lf ∉ l) :
    HasLine t (unlines lf done) l (lf :: (unlines lf ls ++ last)) :=
  ⟨text_cons ht, .inr ⟨_, rfl⟩, hl, hnul⟩

theorem places_cons {done ls : List (List UInt8)} {l : List UInt8}
    (ht : t = unlines lf (done ++ l :: ls) ++ last) :
    places (BootAt t) (unlines lf done).length t.length
      = places (BootAt t) (unlines lf done).length
          ((unlines lf done).length + l.length + 1) ++
        places (BootAt t) (unlines lf (done ++ [l])).length t.length := by
  have hlen : (unlines lf (done ++ [l])).length = (unlines lf done).length + l.length + 1 := by
    rw [unlines_append, unlines_singleton, List.length_append, List.length_append,
      List.length_singleton, Nat.add_assoc]
  have htlen := congrArg List.length (text_cons ht)
  simp only [List.length_append, List.length_cons] at htlen
  rw [hlen]
  exact places_append (by omega) (by omega)

/-- **What the search leaves** when it has gone through the text. -/
theorem lines_run (hnul : nul ∉ t) (hlen : t.length < 2 ^ 32) (hlast : lf ∉ last) :
    ∀ {ls done : List (List UInt8)} {r : Rewrite}, (∀ l ∈ ls, lf ∉ l) →
      t = unlines lf (done ++ ls) ++ last → Partway t header cap done r →
      (places (BootAt t) (unlines lf done).length t.length).foldlM renameAt r = .ok r' →
      (∀ p ∈ places (BootAt t) (unlines lf done).length t.length, p + 31 ≤ t.length) ∧
        Partway t header cap (done ++ ls) r'
  | [], done, r, _, ht, hpart, hrun => by
      rw [List.append_nil] at ht ⊢
      have hline := hasLine_last ht hnul hlast
      have htlen := hline.length
      rw [List.length_nil] at htlen
      obtain ⟨hfits, hkeep⟩ := (hline.line_ok_iff hpart.md5_data hlen hpart.s_le (by omega)
        (by omega)).mp hrun
      rw [if_neg fun hand => hand.1 rfl] at hkeep
      exact ⟨hfits, hkeep ▸ hpart⟩
  | l :: ls, done, r, hls, ht, hpart, hrun => by
      have hline := hasLine_cons ht hnul (hls l List.mem_cons_self)
      have htlen := hline.length
      rw [places_cons ht, List.foldlM_append] at hrun
      obtain ⟨r₁, hrun₁, hrun₂⟩ := C.bind_eq_ok.mp hrun
      obtain ⟨hfits, hturn⟩ := (hline.line_ok_iff hpart.md5_data hlen hpart.s_le
        (Nat.le_succ _) le_rfl).mp hrun₁
      have hpart₁ : Partway t header cap (done ++ [l]) r₁ := by
        by_cases hl : NamesBootloader l
        · rw [if_pos ⟨List.cons_ne_nil _ _, hl⟩] at hturn
          have hle := hl.le_length
          have hs := hpart.s_le
          exact hpart.named (text_cons ht) hl
            (copyRenamed_copied hpart.md5_data (by omega) (by omega) hlen hturn)
        · rw [if_neg fun hand => hl hand.2] at hturn
          exact hturn ▸ hpart.plain hl
      have ht₁ : t = unlines lf (done ++ [l] ++ ls) ++ last := by
        rw [ht, List.append_assoc, List.singleton_append]
      obtain ⟨hrest, hpart₂⟩ := lines_run hnul hlen hlast
        (fun l' hl' => hls l' (List.mem_cons_of_mem l hl')) ht₁ hpart₁ hrun₂
      rw [places_cons ht, List.forall_mem_append]
      rw [List.append_assoc, List.singleton_append] at hpart₂
      exact ⟨⟨hfits, hrest⟩, hpart₂⟩

/-- The last line has a line feed and names a bootloader. -/
def EndsNamed (ls : List (List UInt8)) (last : List UInt8) : Prop :=
  last = [] ∧ ∃ l ∈ ls.getLast?, NamesBootloader l

instance (ls : List (List UInt8)) (last : List UInt8) : Decidable (EndsNamed ls last) :=
  inferInstanceAs (Decidable (_ ∧ ∃ _ ∈ _, _))

theorem endsNamed_of_last {done ls : List (List UInt8)} {l : List UInt8}
    (hnone : unlines lf ls ++ last = []) (hl : NamesBootloader l) :
    EndsNamed (done ++ l :: ls) last := by
  obtain ⟨hls, hlast⟩ := List.append_eq_nil_iff.mp hnone
  cases ls with
  | nil => exact ⟨hlast, l, List.getLast?_concat, hl⟩
  | cons l' ls => simp [unlines] at hls

/-- With enough room the search comes to its end. -/
theorem exists_lines_run (hnul : nul ∉ t) (hlen : t.length < 2 ^ 32) (hlast : lf ∉ last)
    (hfits : ∀ p, BootAt t p → p + 31 ≤ t.length) :
    ∀ {ls done : List (List UInt8)} {r : Rewrite}, (∀ l ∈ ls, lf ∉ l) →
      t = unlines lf (done ++ ls) ++ last → Partway t header cap done r →
      t.length + header.length + 9 * (done ++ ls).countP (NamesBootloader ·) +
        (if EndsNamed (done ++ ls) last then 1 else 0) ≤ cap →
      ∃ r', (places (BootAt t) (unlines lf done).length t.length).foldlM renameAt r = .ok r'
  | [], done, r, _, ht, hpart, _ => by
      rw [List.append_nil] at ht
      have hline := hasLine_last ht hnul hlast
      have htlen := hline.length
      rw [List.length_nil] at htlen
      refine ⟨r, (hline.line_ok_iff hpart.md5_data hlen hpart.s_le (by omega)
        (by omega)).mpr ⟨fun p hp => hfits p (mem_places.mp hp).2, ?_⟩⟩
      exact (if_neg fun hand => hand.1 rfl).mpr rfl
  | l :: ls, done, r, hls, ht, hpart, hroom => by
      have hline := hasLine_cons ht hnul (hls l List.mem_cons_self)
      have htlen := hline.length
      have hs := hpart.s_le
      have ht₁ : t = unlines lf (done ++ [l] ++ ls) ++ last := by
        rw [ht, List.append_assoc, List.singleton_append]
      have hroom₁ : t.length + header.length +
          9 * (done ++ [l] ++ ls).countP (NamesBootloader ·) +
          (if EndsNamed (done ++ [l] ++ ls) last then 1 else 0) ≤ cap := by
        rwa [List.append_assoc, List.singleton_append]
      have hturn (r₁ : Rewrite) := @HasLine.line_ok_iff r r₁ _ _ _ _ hline hpart.md5_data hlen
        hpart.s_le _ (Nat.le_succ _) le_rfl
      have hin : ∀ p ∈ places (BootAt t) (unlines lf done).length
          ((unlines lf done).length + l.length + 1), p + 31 ≤ t.length :=
        fun p hp => hfits p (mem_places.mp hp).2
      have hrest {r₁ : Rewrite} (hpart₁ : Partway t header cap (done ++ [l]) r₁)
          (hrun : (places (BootAt t) (unlines lf done).length
            ((unlines lf done).length + l.length + 1)).foldlM renameAt r = .ok r₁) :
          ∃ r', (places (BootAt t) (unlines lf done).length t.length).foldlM renameAt r
            = .ok r' := by
        obtain ⟨r', hrun'⟩ := exists_lines_run hnul hlen hlast hfits
          (fun l' hl' => hls l' (List.mem_cons_of_mem l hl')) ht₁ hpart₁ hroom₁
        refine ⟨r', ?_⟩
        rw [places_cons ht, List.foldlM_append, hrun]
        exact hrun'
      by_cases hl : NamesBootloader l
      · have hle := hl.le_length
        have hd := hpart.d_eq
        obtain ⟨r₁, hcopy⟩ : ∃ r₁, copyRenamed ((unlines lf done).length + l.length) r
            = .ok r₁ := by
          refine exists_copyRenamed hpart.md5_data (by omega) (by omega) hlen ?_
          have hcount : (done ++ l :: ls).countP (NamesBootloader ·)
              = done.countP (NamesBootloader ·) + (ls.countP (NamesBootloader ·) + 1) := by
            rw [List.countP_append, List.countP_cons_of_pos (by simpa)]
          rw [hcount] at hroom
          rw [List.length_cons] at htlen
          rw [hpart.length]
          rcases Nat.eq_zero_or_pos (unlines lf ls ++ last).length with hnone | hmore
          · -- nothing is behind the line, so the NUL needs room of its own
            rw [if_pos (endsNamed_of_last (List.eq_nil_of_length_eq_zero hnone) hl)] at hroom
            omega
          · omega
        refine hrest (hpart.named (text_cons ht) hl
          (copyRenamed_copied hpart.md5_data (by omega) (by omega) hlen hcopy)) ?_
        exact (hturn r₁).mpr ⟨hin, by rwa [if_pos ⟨List.cons_ne_nil _ _, hl⟩]⟩
      · refine hrest (hpart.plain hl) ((hturn r).mpr ⟨hin, ?_⟩)
        rw [if_neg fun hand => hl hand.2]

end Lines

/-! ## The header -/

theorem hexNumeral_length : ∀ w v : ℕ, (hexNumeral w v).length ≤ w
  | 0, _ => le_rfl
  | w + 1, v => by
      have ih := hexNumeral_length w (v / 16)
      rw [hexNumeral]
      split
      case isTrue => exact Nat.succ_le_succ (Nat.zero_le w)
      case isFalse =>
          rw [List.length_append]
          exact Nat.succ_le_succ ih

theorem nul_notMem_hexNumeral : ∀ w v : ℕ, nul ∉ hexNumeral w v
  | 0, _ => List.not_mem_nil
  | w + 1, v => by
      have ih := nul_notMem_hexNumeral w (v / 16)
      have hdigit : ∀ d < 16, nul ≠ UInt8.ofNat (if d < 10 then 48 + d else 97 + (d - 10)) := by
        decide
      have hne := hdigit (v % 16) (Nat.mod_lt _ (by decide))
      rw [hexNumeral]
      split
      case isTrue => simpa using hne
      case isFalse =>
          rw [List.mem_append, List.mem_singleton, not_or]
          exact ⟨ih, hne⟩

theorem totalbytesLine_length (total : UInt64) : (totalbytesLine total).length ≤ 41 := by
  have hmark : (text "# md5sum_totalbytes = 0x").length = 24 := by decide
  have hlen := hexNumeral_length 16 total.toNat
  rw [totalbytesLine, List.length_append, List.length_append, hmark, List.length_singleton]
  omega

theorem nul_notMem_totalbytesLine (total : UInt64) : nul ∉ totalbytesLine total := by
  have hmark : nul ∉ text "# md5sum_totalbytes = 0x" := by decide
  have hlf : nul ∉ [lf] := by decide
  rw [totalbytesLine, List.mem_append, List.mem_append, not_or, not_or]
  exact ⟨hmark, nul_notMem_hexNumeral _ _, hlf⟩

section Header

variable {t new_data : List UInt8} {total : UInt64} {cap : ℕ}

theorem startRewrite_header (htotal : total ≠ 0) (hcap : 0 < cap)
    (hnew : new_data.length = cap) :
    ∃ r, startRewrite (t ++ [nul]) t.length cap total new_data = .ok r ∧
      Partway t ((totalbytesLine total).take (cap - 1)) cap [] r := by
  have hnul : nul ∉ (totalbytesLine total).take (cap - 1) :=
    fun h => nul_notMem_totalbytesLine total (List.mem_of_mem_take h)
  have hlen : ((totalbytesLine total).take (cap - 1)).length ≤ cap - 1 :=
    List.length_take_le ..
  generalize hheader : (totalbytesLine total).take (cap - 1) = header at hnul hlen
  have hprint : snprintfInto new_data cap (totalbytesLine total)
      = .ok (header ++ nul :: new_data.drop (header.length + 1)) := by
    rw [snprintfInto, if_neg (by omega), hheader, copyInto_of_le
      (by rw [List.length_append, List.length_singleton]; omega)]
    simp
  have hread : cstrAt (header ++ nul :: new_data.drop (header.length + 1)) 0
      = .ok header := by
    rw [cstrAt_text hnul _ (Nat.zero_le _), List.drop_zero]
  refine ⟨⟨t ++ [nul], header ++ nul :: new_data.drop (header.length + 1),
    (t.length + header.length) % 2 ^ 32, header.length, 0⟩, ?_, ?_⟩
  · rw [startRewrite, if_pos htotal, hprint, C.ok_bind, hread]
    rfl
  · have hd : header.length ≤ cap := by omega
    refine ⟨rfl, ?_, hd, Nat.zero_le _, ?_, ?_, nofun⟩
    · rw [List.length_append, List.length_cons, List.length_drop]
      omega
    · simp [unlines]
    · simp

theorem startRewrite_partway (hlen : t.length < 2 ^ 32) (hnew : new_data.length = cap)
    {r : Rewrite} (hrun : startRewrite (t ++ [nul]) t.length cap total new_data = .ok r) :
    Partway t ((headerText total).take (cap - 1)) cap [] r := by
  by_cases htotal : total ≠ 0
  · rcases Nat.eq_zero_or_pos cap with rfl | hcap
    · -- there is no byte of the buffer that `strlen` may read
      rw [startRewrite, if_pos htotal, snprintfInto, if_pos rfl,
        List.eq_nil_of_length_eq_zero hnew] at hrun
      cases hrun
    · obtain ⟨r', hrun', hpart⟩ := @startRewrite_header t _ _ _ htotal hcap hnew
      obtain rfl : r' = r := Except.ok.inj (hrun'.symm.trans hrun)
      rwa [headerText, if_pos htotal]
  · rw [startRewrite, if_neg htotal] at hrun
    cases hrun
    rw [headerText, if_neg htotal, List.take_nil]
    exact ⟨rfl, hnew, Nat.zero_le _, Nat.zero_le _, rfl, (Nat.mod_eq_of_lt hlen).symm, nofun⟩

theorem exists_startRewrite (hcap : 0 < cap) (hnew : new_data.length = cap) :
    ∃ r, startRewrite (t ++ [nul]) t.length cap total new_data = .ok r := by
  by_cases htotal : total ≠ 0
  · obtain ⟨r, hrun, -⟩ := @startRewrite_header t _ _ _ htotal hcap hnew
    exact ⟨r, hrun⟩
  · rw [startRewrite, if_neg htotal]
    exact ⟨_, rfl⟩

end Header

/-! ## The result -/

section Result

variable {t header last : List UInt8} {cap : ℕ} {ls : List (List UInt8)} {r : Rewrite}

/-- What is left of the text has to fit as well. -/
theorem Partway.finish_iff (h : Partway t header cap ls r) (ht : t = unlines lf ls ++ last)
    (hcap : cap < 2 ^ 32) {result : List UInt8 × ℕ} :
    (do
      let rest ← loadN r.md5_data r.s (t.length - r.s)
      let new_data ← copyInto r.new_data r.d rest
      let written ← loadN new_data 0 r.new_size
      return (written, r.new_size)) = (.ok result : C (List UInt8 × ℕ)) ↔
      t.length + header.length + 9 * ls.countP (NamesBootloader ·) ≤ cap ∧
      result = (header ++ (unlines lf (ls.map asWritten) ++ last),
        (header ++ (unlines lf (ls.map asWritten) ++ last)).length) := by
  have hs := h.s_le
  have hd := h.d_eq
  have htlen := congrArg List.length ht
  rw [List.length_append] at htlen
  have hload : loadN r.md5_data r.s (t.length - r.s) = .ok (t.drop r.s) := by
    rw [h.md5_data, loadN_of_le (by rw [List.length_append]; omega),
      List.drop_append_of_le_length (by omega), ← List.length_drop, List.take_left]
  have hrest : (t.drop r.s).length = t.length - r.s := List.length_drop
  have htext : r.new_data.take r.d ++ t.drop r.s
      = header ++ (unlines lf (ls.map asWritten) ++ last) := by
    rw [ht, List.drop_append_of_le_length hs, ← List.append_assoc, h.written,
      List.append_assoc]
  have hlength := congrArg List.length htext
  rw [List.length_append, List.length_take_of_le (h.length ▸ h.d_le), hrest] at hlength
  rw [hload, C.ok_bind]
  by_cases hfits : t.length + header.length + 9 * ls.countP (NamesBootloader ·) ≤ cap
  · have hroom : r.d + (t.drop r.s).length ≤ r.new_data.length := by
      rw [hrest, h.length]
      omega
    obtain ⟨new_data, hcopy⟩ : ∃ new_data, copyInto r.new_data r.d (t.drop r.s) = .ok new_data :=
      ⟨_, copyInto_of_le hroom⟩
    obtain ⟨-, hlen, htake⟩ := copyInto_ok hcopy
    have hsize : r.new_size = r.d + (t.drop r.s).length := by
      rw [h.new_size, hrest, Nat.mod_eq_of_lt (by omega)]
      omega
    have hwritten : loadN new_data 0 r.new_size
        = .ok (header ++ (unlines lf (ls.map asWritten) ++ last)) := by
      have hall := htake _ le_rfl
      rw [List.take_length, htext, ← hsize] at hall
      rw [loadN_of_le (by omega), List.drop_zero, hall]
    have hresult : r.new_size = (header ++ (unlines lf (ls.map asWritten) ++ last)).length := by
      rw [hsize, hrest, hlength]
    rw [hcopy, C.ok_bind, hwritten, C.ok_bind, C.pure_eq, Except.ok.injEq, and_iff_right hfits,
      ← hresult]
    exact eq_comm
  · have hover : copyInto r.new_data r.d (t.drop r.s) = .error .outOfBounds := by
      rw [copyInto, if_neg]
      rw [hrest, h.length]
      omega
    rw [hover]
    exact iff_of_false C.error_ne_ok fun hand => hfits hand.1

theorem asWritten_eq_iff {l : List UInt8} :
    asWritten l = insertOriginal l ↔ (NamesBootloader l → text ".efi" <:+ l) := by
  unfold asWritten insertOriginal
  split
  case isTrue h =>
      have hefi : text "_original.efi" = text "_original" ++ text ".efi" := by decide
      have hlen : (text ".efi").length = 4 := by decide
      rw [hefi, List.append_cancel_left_eq, List.append_cancel_left_eq,
        List.suffix_iff_eq_drop, hlen]
      exact ⟨fun heq _ => heq, fun himp => himp h⟩
  case isFalse h => exact iff_of_true rfl fun hl => absurd hl h

theorem insertOriginal_length (l : List UInt8) :
    (insertOriginal l).length = l.length + 9 * [l].countP (NamesBootloader ·) := by
  have hlen : (text "_original").length = 9 := by decide
  unfold insertOriginal
  split
  case isTrue h =>
      rw [List.length_append, List.length_append, List.length_take, List.length_drop, hlen,
        List.countP_singleton, if_pos (by simpa)]
      omega
  case isFalse h =>
      rw [List.countP_singleton, if_neg (by simpa)]
      omega

/-- The copy and the text that is due are the same line by line. -/
theorem written_eq_iff : ∀ ls : List (List UInt8),
    unlines lf (ls.map asWritten) ++ last
        = unlines lf (ls.map insertOriginal) ++ insertOriginal last ↔
      (∀ l ∈ ls, NamesBootloader l → text ".efi" <:+ l) ∧ ¬NamesBootloader last
  | [] => by
      have hlen := insertOriginal_length last
      refine ⟨fun heq => ⟨nofun, fun hlast => ?_⟩, fun hand => ?_⟩
      · rw [List.countP_singleton, if_pos (by simpa)] at hlen
        have hself := congrArg List.length heq
        simp only [unlines, List.map_nil, List.flatten_nil, List.nil_append] at hself
        omega
      · rw [insertOriginal, if_neg hand.2]
        rfl
  | l :: ls => by
      have ih := written_eq_iff ls
      have hlen : (asWritten l).length = (insertOriginal l).length := by
        rw [asWritten_length, insertOriginal_length]
      have hsplit (x y : List UInt8) : asWritten l ++ x = insertOriginal l ++ y ↔
          asWritten l = insertOriginal l ∧ x = y :=
        ⟨fun heq => List.append_inj heq hlen, fun hand => by rw [hand.1, hand.2]⟩
      rw [List.map_cons, List.map_cons, unlines_cons, unlines_cons, List.append_assoc,
        List.append_assoc,
        List.cons_append, List.cons_append, hsplit, List.cons.injEq, eq_self_iff_true,
        true_and, ih, asWritten_eq_iff, List.forall_mem_cons, and_assoc]

end Result

/-- Where the loop writes what is due: no match is nearer to the end of the text
than the longest name is long, the names end in lower case, the last line names
no bootloader if no line feed is behind it, and there is room for what is added. -/
structure Renames (t : List UInt8) (md5sum_totalbytes : UInt64) : Prop where
  inside : ∀ p, BootAt t p → p + 31 ≤ t.length
  lower : ∀ l ∈ (cutLines lf t).1, NamesBootloader l → text ".efi" <:+ l
  closed : ¬NamesBootloader (cutLines lf t).2
  room : (headerText md5sum_totalbytes).length +
    9 * (cutLines lf t).1.countP (NamesBootloader ·) +
    (if EndsNamed (cutLines lf t).1 (cutLines lf t).2 then 1 else 0) ≤ 1024
  size : t.length + 1024 < 2 ^ 32

theorem headerText_length (total : UInt64) : (headerText total).length ≤ 41 := by
  unfold headerText
  split
  case isTrue => exact totalbytesLine_length total
  case isFalse => exact Nat.zero_le _

/-- **The rewrite** of the text is the header and the text with the bootloaders
renamed, and no access leaves a buffer, if and only if the text is such. -/
theorem renameBootloaders_iff (t : List UInt8) (md5sum_totalbytes : UInt64)
    (fresh : ℕ → UInt8) (hnul : nul ∉ t) (hlen : t.length < 2 ^ 32) :
    renameBootloaders (t ++ [nul]) t.length md5sum_totalbytes fresh
        = .ok (headerText md5sum_totalbytes ++ withOriginals t,
          (headerText md5sum_totalbytes ++ withOriginals t).length) ↔
      Renames t md5sum_totalbytes := by
  obtain ⟨ls, last, ht, hls, hlast⟩ := exists_unlines lf t
  have hcut : cutLines lf t = (ls, last) := ht ▸ cutLines_unlines hlast hls
  have hstartText : t = unlines lf ([] ++ ls) ++ last := ht
  have hdue : withOriginals t = unlines lf (ls.map insertOriginal) ++ insertOriginal last := by
    rw [withOriginals, hcut]
  have hheader := headerText_length md5sum_totalbytes
  have hcap : (t.length + 1024) % 2 ^ 32 < 2 ^ 32 := Nat.mod_lt _ (by decide)
  have hnew : ((List.range ((t.length + 1024) % 2 ^ 32)).map fresh).length
      = (t.length + 1024) % 2 ^ 32 := by
    rw [List.length_map, List.length_range]
  have hsearch {header : List UInt8} {cap : ℕ} {r : Rewrite} (h : Partway t header cap [] r) :
      renameLoop (t.length + 1) 0 r
        = (places (BootAt t) (unlines lf []).length t.length).foldlM renameAt r :=
    renameLoop_eq hnul h.md5_data (Nat.zero_le _) (by omega)
  constructor
  · intro hrun
    obtain ⟨r, hstart, hrun⟩ := C.bind_eq_ok.mp hrun
    have hpart := startRewrite_partway hlen hnew hstart
    rw [hsearch hpart] at hrun
    obtain ⟨r', hloop, hrun⟩ := C.bind_eq_ok.mp hrun
    obtain ⟨hfits, hpart'⟩ := lines_run hnul hlen hlast hls hstartText hpart hloop
    rw [List.nil_append] at hpart'
    obtain ⟨hroom, hresult⟩ := (hpart'.finish_iff ht hcap).mp hrun
    have hsize : t.length + 1024 < 2 ^ 32 := by omega
    rw [Nat.mod_eq_of_lt hsize] at hroom hpart' hresult
    rw [List.take_of_length_le (show (headerText md5sum_totalbytes).length
      ≤ t.length + 1024 - 1 by omega)] at hroom hpart' hresult
    rw [hdue, Prod.mk.injEq, List.append_cancel_left_eq, eq_comm] at hresult
    obtain ⟨hlower, hclosed⟩ := (written_eq_iff ls).mp hresult.1
    refine ⟨fun p hp => ?_, hcut ▸ hlower, hcut ▸ hclosed, ?_, hsize⟩
    · have hle := hp.le_length
      exact hfits p (mem_places.mpr ⟨⟨Nat.zero_le p, by omega⟩, hp⟩)
    · rw [hcut]
      split
      case isTrue hends =>
          obtain ⟨hnone, l, hl, hnames⟩ : EndsNamed ls last := hends
          obtain ⟨hs, hd⟩ := hpart'.room l hl hnames
          have hdeq := hpart'.d_eq
          have htlen := congrArg List.length ht
          rw [hnone, List.append_nil] at htlen
          dsimp only
          omega
      case isFalse =>
          dsimp only
          omega
  · rintro ⟨hinside, hlower, hclosed, hroom, hsize⟩
    rw [hcut] at hlower hclosed hroom
    dsimp only at hlower hclosed hroom
    rw [renameBootloaders, Nat.mod_eq_of_lt hsize]
    rw [Nat.mod_eq_of_lt hsize] at hnew hcap
    obtain ⟨r, hstart⟩ := @exists_startRewrite t _ md5sum_totalbytes _ (by omega) hnew
    have hpart := startRewrite_partway hlen hnew hstart
    rw [List.take_of_length_le (show (headerText md5sum_totalbytes).length
      ≤ t.length + 1024 - 1 by omega)] at hpart
    obtain ⟨r', hloop⟩ := exists_lines_run hnul hlen hlast hinside hls hstartText hpart
      (by rw [List.nil_append]; omega)
    have hpart' := (lines_run hnul hlen hlast hls hstartText hpart hloop).2
    rw [List.nil_append] at hpart'
    simp only [hstart, C.ok_bind, hsearch hpart, hloop]
    refine (hpart'.finish_iff ht hcap).mpr ⟨by split at hroom <;> omega, ?_⟩
    rw [hdue, (written_eq_iff ls).mpr ⟨hlower, hclosed⟩]

/-- A list with a bootloader in front of another file. -/
def bootText : List UInt8 :=
  text "d41d8cd98f00b204e9800998ecf8427e  ./EFI/BOOT/bootx64.efi\n" ++
    text "d41d8cd98f00b204e9800998ecf8427e  ./vmlinuz\n"

theorem renames_bootText : Renames bootText 0x1a2b := by
  have hall : ∀ p < 110, BootAt bootText p → p + 31 ≤ bootText.length := by decide +kernel
  have hlen : bootText.length ≤ 110 := by decide
  refine ⟨fun p hp => hall p ?_ hp, by decide, by decide, by decide,
    by decide⟩
  have hle := hp.le_length
  omega

theorem renameBootloaders_bootText :
    renameBootloaders (bootText ++ [nul]) bootText.length 0x1a2b (fun _ => 0)
      = .ok (headerText 0x1a2b ++ withOriginals bootText,
        (headerText 0x1a2b ++ withOriginals bootText).length) :=
  (renameBootloaders_iff bootText 0x1a2b (fun _ => 0) (by decide)
    (by decide)).mpr renames_bootText

/-- The same list with the bootloader as its last line -/
def bootLastText : List UInt8 :=
  text "d41d8cd98f00b204e9800998ecf8427e  ./vmlinuz\n" ++
    text "d41d8cd98f00b204e9800998ecf8427e  ./efi/boot/bootx64.efi\n"

def bootUpperText : List UInt8 :=
  text "d41d8cd98f00b204e9800998ecf8427e  ./EFI/BOOT/BOOTX64.EFI\n" ++
    text "d41d8cd98f00b204e9800998ecf8427e  ./vmlinuz\n"

/-- The longest name is looked for behind the end of the text, and a name in
upper case gets an end in lower case. -/
theorem renameBootloaders_last_line :
    renameBootloaders (bootLastText ++ [nul]) bootLastText.length 0 (fun _ => 0)
      = .error .outOfBounds ∧
    renameBootloaders (bootUpperText ++ [nul]) bootUpperText.length 0 (fun _ => 0)
      = .ok (text "d41d8cd98f00b204e9800998ecf8427e  ./EFI/BOOT/BOOTX64_original.efi\n" ++
          text "d41d8cd98f00b204e9800998ecf8427e  ./vmlinuz\n", 110) ∧
    withOriginals bootUpperText
      = text "d41d8cd98f00b204e9800998ecf8427e  ./EFI/BOOT/BOOTX64_original.EFI\n" ++
          text "d41d8cd98f00b204e9800998ecf8427e  ./vmlinuz\n" := by
  decide +kernel

end Nawam
