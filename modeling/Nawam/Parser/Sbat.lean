import Nawam.Security.TextGrammar

/-!
# The SBAT level parser

`GetSbatEntries` of `parser.c`: an in-place tokenizer over a NUL-terminated
buffer. It turns every CR into LF, then walks the text, overwriting the commas
after a product and after a version with NUL, and fills a `calloc`ed array of
`(product, version)` entries whose last one keeps its `NULL` product.

A product is an offset into the buffer, so what an entry says is read off the
buffer *after* the walk. The main theorem, `getSbatEntries_of_valid`, says
that on a text the validator accepts this gives one entry per data row, in
order.
-/

namespace Nawam

open Ascii

/-- `sbat_entry_t`: the product is an offset into the parsed text, `none`
for `NULL`. -/
structure SbatEntry where
  product : Option ℕ
  version : ℕ
deriving DecidableEq, Repr

/-- An entry of the array as `calloc` leaves it. -/
def SbatEntry.zero : SbatEntry := ⟨none, 0⟩

/-- `c == ',' || c == '\0' || c == '\n'` -/
def endsColumn (c : UInt8) : Bool := c = comma || c = nul || c = lf

/-- `c == '\0' || c == '\n'` -/
def endsLine (c : UInt8) : Bool := c = nul || c = lf

/-- `if (sbatlevel[i] == '\r') sbatlevel[i] = '\n';` -/
def crToLf (c : UInt8) : UInt8 := if c = cr then lf else c

/-- `sbat_list[k].product = &sbatlevel[p]` -/
def setProduct (list : List SbatEntry) (k p : ℕ) : C (List SbatEntry) :=
  match list[k]? with
  | some e => .ok (list.set k { e with product := some p })
  | none => .error .outOfBounds

/-- `sbat_list[k].version = v` -/
def setVersion (list : List SbatEntry) (k v : ℕ) : C (List SbatEntry) :=
  match list[k]? with
  | some e => .ok (list.set k { e with version := v })
  | none => .error .outOfBounds

/-- The version of a column: hexadecimal after `0x`, else decimal. -/
def parseVersion (str : List UInt8) : ℕ :=
  match str with
  | 48 :: 120 :: _ => strtoul 16 str
  | _ => strtoul 10 str

/-- The walk, one line feed, comment or row per iteration. -/
def sbatLoop : ℕ → List UInt8 → ℕ → List SbatEntry → ℕ →
    C (List UInt8 × List SbatEntry × ℕ)
  | 0, _, _, _, _ => .error .outOfFuel
  | fuel + 1, mem, i, list, num => do
      let c ← load mem i
      if c = nul then return (mem, list, num)
      else if c = lf then sbatLoop fuel mem (i + 1) list num
      else if c = hash then
        let i ← scanFrom endsLine mem i
        sbatLoop fuel mem i list num
      else
        let list ← setProduct list num i
        let i ← scanFrom endsColumn mem i
        let c ← load mem i
        if c = nul ∨ c = lf then return (mem, list, num)
        else
          let mem ← store mem i nul
          let versionStr := i + 1
          let i ← scanFrom endsColumn mem versionStr
          let c ← load mem i
          let mem ← store mem i nul
          -- `if (!eof) i++;`
          let i := if c = nul then i else i + 1
          let str ← cstrAt mem versionStr
          let version := parseVersion str
          let list ← setVersion list num version
          -- `if (!eol)` the rest of the line is skipped
          let i ← if c = nul ∨ c = lf then pure i else scanFrom endsLine mem i
          sbatLoop fuel mem i list (if version ≠ 0 then num + 1 else num)

/-- `GetSbatEntries`: the buffer afterwards and the array, `none` for `NULL`.
`calloc` is whether the allocation succeeds. A `NULL` text, for which the
function returns `NULL`, is left to the callers. -/
def getSbatEntries (calloc : Bool) (mem : List UInt8) :
    C (List UInt8 × Option (List SbatEntry)) := do
  let text ← cstrAt mem 0
  let numEntries := 1 + text.count lf
  let mem := text.map crToLf ++ mem.drop text.length
  if !calloc then return (mem, none)
  else
    let (mem, list, num) ← sbatLoop (mem.length + 1) mem 0
      (List.replicate (numEntries + 1) SbatEntry.zero) 0
    return (mem, if num = 0 then none else some list)

/-! ## One step on each kind of line

The buffer is split at the cursor: `pre` is what the walk has left behind. -/

theorem setProduct_append (done : List SbatEntry) (e : SbatEntry)
    (rest : List SbatEntry) (p : ℕ) :
    setProduct (done ++ e :: rest) done.length p
      = .ok (done ++ { e with product := some p } :: rest) := by
  simp [setProduct]

theorem setVersion_append (done : List SbatEntry) (e : SbatEntry)
    (rest : List SbatEntry) (v : ℕ) :
    setVersion (done ++ e :: rest) done.length v
      = .ok (done ++ { e with version := v } :: rest) := by
  simp [setVersion]

theorem sbatLoop_lf (fuel : ℕ) (pre rest : List UInt8)
    (list : List SbatEntry) (num : ℕ) :
    sbatLoop (fuel + 1) (pre ++ lf :: rest) pre.length list num =
      sbatLoop fuel ((pre ++ [lf]) ++ rest) (pre ++ [lf]).length list num := by
  rw [sbatLoop, load_append_cons]
  simp

theorem sbatLoop_lfs (pre rest : List UInt8) (list : List SbatEntry)
    (num : ℕ) : ∀ (k fuel : ℕ),
    sbatLoop (fuel + k) (pre ++ (List.replicate k lf ++ rest)) pre.length list
      num = sbatLoop fuel ((pre ++ List.replicate k lf) ++ rest)
        (pre ++ List.replicate k lf).length list num := by
  intro k
  induction k generalizing pre with
  | zero => simp
  | succ k ih =>
      intro fuel
      rw [List.replicate_succ, List.cons_append, ← Nat.add_assoc, sbatLoop_lf,
        ih (pre ++ [lf]) fuel]
      simp

theorem endsLine_false_iff {c : UInt8} :
    endsLine c = false ↔ c ≠ nul ∧ c ≠ lf := by
  simp [endsLine]

theorem endsColumn_false_iff {c : UInt8} :
    endsColumn c = false ↔ c ≠ comma ∧ c ≠ nul ∧ c ≠ lf := by
  simp [endsColumn, and_assoc]

theorem sbatLoop_comment (fuel : ℕ) {pre l : List UInt8} {c : UInt8}
    {rest : List UInt8} {list : List SbatEntry} {num : ℕ}
    (hl : ∀ b ∈ hash :: l, endsLine b = false) (hc : endsLine c = true) :
    sbatLoop (fuel + 1) (pre ++ ((hash :: l) ++ c :: rest)) pre.length list num
      = sbatLoop fuel ((pre ++ (hash :: l)) ++ c :: rest)
          (pre ++ (hash :: l)).length list num := by
  rw [sbatLoop, scanFrom_append hl hc, List.cons_append, load_append_cons]
  simp

/-- The buffer after a row was tokenized: NUL behind the product and behind
the version. -/
def rowDone (pre product column : List UInt8) : List UInt8 :=
  pre ++ (product ++ nul :: (column ++ [nul]))

/-- The two tokens of a row `product,column` that the byte `d` ends: where
the scans stop, what they find there, and the buffer after each store. -/
structure RowTokens (pre product column rest : List UInt8) (d : UInt8)
    (mem : List UInt8) (i j : ℕ) : Prop where
  scanProduct : scanFrom endsColumn
    (pre ++ (product ++ comma :: (column ++ d :: rest))) pre.length = .ok i
  loadComma : load (pre ++ (product ++ comma :: (column ++ d :: rest))) i
    = .ok comma
  cutProduct : store (pre ++ (product ++ comma :: (column ++ d :: rest))) i nul
    = .ok mem
  scanColumn : scanFrom endsColumn mem (i + 1) = .ok j
  loadEnd : load mem j = .ok d
  cutColumn : store mem j nul = .ok (rowDone pre product column ++ rest)
  productStr : cstrAt (rowDone pre product column ++ rest) pre.length
    = .ok product
  columnStr : cstrAt (rowDone pre product column ++ rest) (i + 1) = .ok column
  done : j + 1 = (rowDone pre product column).length

theorem rowTokens (pre rest : List UInt8) {product column : List UInt8}
    {d : UInt8} (hproduct : ∀ b ∈ product, endsColumn b = false)
    (hcolumn : ∀ b ∈ column, endsColumn b = false)
    (hd : endsColumn d = true) :
    ∃ mem i j, RowTokens pre product column rest d mem i j := by
  have hnul : ∀ {w : List UInt8}, (∀ b ∈ w, endsColumn b = false) →
      nul ∉ w := by
    intro w hw hmem
    exact absurd (hw nul hmem) (by decide)
  have hfirst : pre ++ (product ++ comma :: (column ++ d :: rest))
      = (pre ++ product) ++ comma :: (column ++ d :: rest) := by simp
  have hcut : (pre ++ product) ++ nul :: (column ++ d :: rest)
      = (pre ++ (product ++ [nul])) ++ (column ++ d :: rest) := by simp
  have hsecond : (pre ++ (product ++ [nul])) ++ (column ++ d :: rest)
      = ((pre ++ (product ++ [nul])) ++ column) ++ d :: rest := by simp
  have hdone : rowDone pre product column ++ rest
      = (pre ++ (product ++ [nul])) ++ (column ++ nul :: rest) := by
    simp [rowDone]
  have hnext : (pre ++ product).length + 1
      = (pre ++ (product ++ [nul])).length := by
    simp only [List.length_append, List.length_singleton, Nat.add_assoc]
  refine ⟨(pre ++ (product ++ [nul])) ++ (column ++ d :: rest),
    (pre ++ product).length,
    ((pre ++ (product ++ [nul])) ++ column).length, ?_⟩
  refine ⟨?_, ?_, ?_, ?_, ?_, ?_, ?_, ?_, ?_⟩
  · rw [scanFrom_append hproduct (by decide), List.length_append]
  · rw [hfirst, load_append_cons]
  · rw [hfirst, store_append_cons, hcut]
  · rw [hnext, scanFrom_append hcolumn hd, ← List.length_append]
  · rw [hsecond, load_append_cons]
  · rw [hsecond, store_append_cons, hdone, List.append_assoc _ column]
  · have hmem : rowDone pre product column ++ rest
        = pre ++ (product ++ nul :: (column ++ nul :: rest)) := by
      simp [rowDone]
    rw [hmem, cstrAt_append (hnul hproduct)]
  · rw [hnext, hdone, cstrAt_append (hnul hcolumn)]
  · simp [rowDone, Nat.add_assoc]

/-- The row iteration up to the point where it looks at the byte `d` that
ended the version. -/
theorem sbatLoop_row (fuel : ℕ) (pre rest : List UInt8)
    (done zeros : List SbatEntry) {product column : List UInt8} {d : UInt8}
    (hne : product ≠ []) (hhash : product.head? ≠ some hash)
    (hproduct : ∀ b ∈ product, endsColumn b = false)
    (hcolumn : ∀ b ∈ column, endsColumn b = false)
    (hd : endsColumn d = true) (hversion : parseVersion column ≠ 0) :
    sbatLoop (fuel + 1)
        (pre ++ (product ++ comma :: (column ++ d :: rest))) pre.length
        (done ++ SbatEntry.zero :: zeros) done.length =
      (if d = nul ∨ d = lf then
        pure (if d = nul then (rowDone pre product column).length - 1
          else (rowDone pre product column).length)
        else scanFrom endsLine (rowDone pre product column ++ rest)
          (rowDone pre product column).length) >>= fun i =>
      sbatLoop fuel (rowDone pre product column ++ rest) i
        (done ++ ⟨some pre.length, parseVersion column⟩ :: zeros)
        (done.length + 1) := by
  obtain ⟨mem, i, j, htok⟩ := rowTokens pre rest hproduct hcolumn hd
  obtain ⟨p0, ps, hp⟩ := List.exists_cons_of_ne_nil hne
  have hp0 := endsColumn_false_iff.mp
    (hproduct p0 (by rw [hp]; exact List.mem_cons_self))
  have hp0hash : p0 ≠ hash := by
    intro h
    exact hhash (by rw [hp, h]; rfl)
  have hload : load (pre ++ (product ++ comma :: (column ++ d :: rest)))
      pre.length = .ok p0 := by
    rw [hp]
    exact load_append_cons _ _ _
  rw [sbatLoop, hload]
  simp only [C.ok_bind]
  rw [if_neg hp0.2.1, if_neg hp0.2.2, if_neg hp0hash, setProduct_append]
  simp only [C.ok_bind, htok.scanProduct, htok.loadComma]
  rw [if_neg (by decide)]
  simp only [htok.cutProduct, htok.scanColumn, htok.loadEnd, htok.cutColumn,
    htok.columnStr, setVersion_append, C.ok_bind]
  rw [htok.done, if_pos hversion]
  have hpred : j = (rowDone pre product column).length - 1 := by
    have := htok.done
    omega
  rw [hpred]
  by_cases hdn : d = nul
  · simp [hdn]
  · by_cases hdl : d = lf
    · simp [hdl]
    · simp [hdn, hdl]

/-! ## One line of a valid text -/

/-- The text before the first comma of a row. -/
def productOf (row : List UInt8) : List UInt8 := row.takeWhile (· ≠ comma)

def secondColumn (row : List UInt8) : List UInt8 :=
  ((row.dropWhile (· ≠ comma)).drop 1).takeWhile (· ≠ comma)

theorem endsColumn_of_productChar : ∀ c : UInt8, isProductChar c = true →
    endsColumn c = false :=
  forall_byte (by decide +kernel)

theorem endsColumn_of_digit : ∀ c : UInt8, isDigitOf 16 c = true →
    endsColumn c = false :=
  forall_byte (by decide +kernel)

theorem isDigitOf_mono {b b' : ℕ} (h : b ≤ b') {c : UInt8}
    (hc : isDigitOf b c = true) : isDigitOf b' c = true := by
  unfold isDigitOf at hc ⊢
  cases hd : digitValue c with
  | none => simp [hd] at hc
  | some d =>
      simp only [hd, decide_eq_true_eq] at hc ⊢
      exact hc.trans_le h

theorem isDigitOf_of_isDigit {c : UInt8} (h : isDigit c = true) :
    isDigitOf 16 c = true := by
  obtain ⟨d, hd, hlt⟩ := digitValue_lt_ten_iff.mpr h
  simp only [isDigitOf, hd, decide_eq_true_eq]
  omega

theorem endsColumn_of_versionColumn {column : List UInt8} {v : ℕ}
    (h : VersionColumn column v) : ∀ c ∈ column, endsColumn c = false := by
  intro c hc
  rcases h with ⟨-, hnum⟩ | ⟨digits, rfl, -, hnum⟩
  · exact endsColumn_of_digit c
      (isDigitOf_mono (by decide) (isDigitOf_of_numeralFrom hnum c hc))
  · simp only [List.mem_cons] at hc
    rcases hc with rfl | rfl | hc
    · decide
    · decide
    · exact endsColumn_of_digit c (isDigitOf_of_numeralFrom hnum c hc)

/-- The parser's reading of a version column is its numeric value. -/
theorem parseVersion_eq {column : List UInt8} {v : ℕ}
    (h : VersionColumn column v) (hv : v ≤ uint32Max) :
    parseVersion column = v := by
  have hlt : v < 2 ^ 32 := Nat.lt_of_le_of_lt hv (by decide)
  rcases h with hnum | ⟨digits, rfl, hnum⟩
  · unfold parseVersion
    split
    · exact absurd hnum (not_numeral_ten_of_hexMark
        (List.append_nil _).symm (Or.inl rfl))
    · exact strtoul_decimal hnum hlt
  · exact strtoul_hex hnum hlt

theorem takeWhile_ne_comma {w s : List UInt8}
    (hw : ∀ c ∈ w, endsColumn c = false) (hs : ColumnEnd s) :
    (w ++ s).takeWhile (· ≠ comma) = w := by
  have hne : ∀ c ∈ w, decide (c ≠ comma) = true := by
    intro c hc
    rw [decide_eq_true_eq]
    exact (endsColumn_false_iff.mp (hw c hc)).1
  rw [List.takeWhile_append_of_pos hne]
  rcases hs with rfl | hs
  · simp
  · obtain ⟨t, rfl⟩ := List.head?_eq_some_iff.mp hs
    simp

/-- A data row behind which the line ends with `c`: one iteration stores its
entry and leaves the cursor at `c`, or behind it when `c` is the line feed
that ended the version. -/
theorem sbatLoop_dataRow {l : List UInt8} (hl : SbatRow EndsInSbat l)
    (pre rest : List UInt8) {c : UInt8} (hc : endsLine c = true)
    (done zeros : List SbatEntry) :
    ∃ pre' rest' v, pre ++ (productOf l ++ [nul]) <+: pre' ∧
      VersionColumn (secondColumn l) v ∧
      (rest' = c :: rest ∨ c = lf ∧ rest' = rest) ∧
      ∀ fuel, sbatLoop (fuel + 1) (pre ++ (l ++ c :: rest)) pre.length
          (done ++ SbatEntry.zero :: zeros) done.length =
        sbatLoop fuel (pre' ++ rest') pre'.length
          (done ++ ⟨some pre.length, v⟩ :: zeros) (done.length + 1) := by
  obtain ⟨product, column, tail, v, rfl, h1, -, hall, hcol, hv, hmax, htail⟩
    := hl
  have hne : product ≠ [] := List.length_pos_iff.mp h1
  have hhash : product.head? ≠ some hash := by
    intro h
    exact absurd (hall hash (List.mem_of_head? h)) (by decide)
  have hproduct : ∀ b ∈ product, endsColumn b = false :=
    fun b hb => endsColumn_of_productChar b (hall b hb)
  have hcolumn := endsColumn_of_versionColumn hcol
  have hversion : parseVersion column = v := parseVersion_eq hcol hmax
  have hvne : parseVersion column ≠ 0 := by omega
  have hend : ColumnEnd tail := by
    rcases htail with h | ⟨-, date, rfl, -⟩
    · exact Or.inl h
    · exact Or.inr rfl
  have hprodOf : productOf (product ++ comma :: (column ++ tail)) = product :=
    (takeWhile_product hall).1
  have hsecond : secondColumn (product ++ comma :: (column ++ tail))
      = column := by
    unfold secondColumn
    rw [(takeWhile_product hall).2]
    exact takeWhile_ne_comma hcolumn hend
  have hdoneEq : rowDone pre product column
      = (pre ++ (product ++ [nul])) ++ (column ++ [nul]) := by simp [rowDone]
  rw [hprodOf, hsecond]
  have hcc : c = nul ∨ c = lf := by simpa [endsLine] using hc
  rcases htail with rfl | ⟨-, date, rfl, -, hdigits⟩
  · have hd : endsColumn c = true := by
      rcases hcc with rfl | rfl <;> decide
    rcases hcc with rfl | rfl
    · -- end of the text: the cursor stays at the NUL
      refine ⟨(pre ++ (product ++ [nul])) ++ column, nul :: rest, v,
        List.prefix_append _ _, hcol, Or.inl rfl, ?_⟩
      intro fuel
      have hrow := sbatLoop_row fuel pre rest done zeros hne hhash hproduct
        hcolumn hd hvne
      have hlen : (rowDone pre product column).length - 1
          = ((pre ++ (product ++ [nul])) ++ column).length := by
        simp only [hdoneEq, List.length_append, List.length_singleton]
        omega
      rw [List.append_nil, List.append_assoc, List.cons_append, hrow, hversion,
        hlen]
      simp [hdoneEq]
    · refine ⟨rowDone pre product column, rest, v, ?_, hcol, Or.inr ⟨rfl, rfl⟩,
        ?_⟩
      · rw [hdoneEq]
        exact List.prefix_append _ _
      · intro fuel
        have hrow := sbatLoop_row fuel pre rest done zeros hne hhash hproduct
          hcolumn hd hvne
        rw [List.append_nil, List.append_assoc, List.cons_append, hrow,
          hversion]
        simp
  · -- a date column: the walk goes on to the end of the line
    refine ⟨rowDone pre product column ++ date, c :: rest, v, ?_, hcol,
      Or.inl rfl, ?_⟩
    · rw [hdoneEq, List.append_assoc]
      exact List.prefix_append _ _
    · intro fuel
      have hcomma : endsColumn comma = true := by decide
      have hrow := sbatLoop_row fuel pre (date ++ c :: rest) done zeros hne
        hhash hproduct hcolumn hcomma hvne
      have hdate : ∀ b ∈ date, endsLine b = false := by
        intro b hb
        have hcolEnd := endsColumn_of_digit b
          (isDigitOf_of_isDigit (hdigits b hb))
        exact endsLine_false_iff.mpr (endsColumn_false_iff.mp hcolEnd).2
      have hscan : scanFrom endsLine
          (rowDone pre product column ++ (date ++ c :: rest))
          (rowDone pre product column).length
          = .ok ((rowDone pre product column).length + date.length) :=
        scanFrom_append hdate hc
      rw [List.append_assoc, List.cons_append, List.append_assoc,
        List.cons_append, hrow, hversion, if_neg (by decide), hscan]
      simp

theorem map_crToLf_textChars {l : List UInt8}
    (hl : ∀ c ∈ l, isTextChar c = true) : l.map crToLf = l := by
  have hid : ∀ c ∈ l, crToLf c = id c := by
    intro c hc
    simp [crToLf, (textChar_facts c (hl c hc)).2.2]
  rw [List.map_congr_left hid, List.map_id]

/-- After the CRs are gone, a line end is one or two line feeds. -/
theorem map_crToLf_firstLine {s l r : List UInt8} (h : FirstLine s l r) :
    ∃ k, s.map crToLf = l ++ (List.replicate k lf ++ r.map crToLf) ∧
      (k = 0 → r = []) := by
  have hl := map_crToLf_textChars h.textChar
  rcases h.split with ⟨rfl, rfl, -⟩ | rfl | rfl
  · exact ⟨0, by simpa using hl, fun _ => rfl⟩
  · exact ⟨1, by simp [hl, crToLf], by simp⟩
  · exact ⟨2, by simp [hl, crToLf], by simp⟩

theorem endsLine_of_textChar : ∀ c : UInt8, isTextChar c = true →
    endsLine c = false :=
  forall_byte (by decide +kernel)

/-- A line that is not a data row is passed over. -/
theorem sbatLoop_skipLine {l : List UInt8}
    (hl : ∀ c ∈ l, isTextChar c = true) (hskip : isDataRow l = false)
    (pre rest : List UInt8) {c : UInt8} (hc : endsLine c = true)
    (list : List SbatEntry) (num : ℕ) :
    ∃ k, k ≤ l.length ∧ ∀ fuel,
      sbatLoop (fuel + k) (pre ++ (l ++ c :: rest)) pre.length list num =
        sbatLoop fuel ((pre ++ l) ++ c :: rest) (pre ++ l).length list num := by
  have hblank : l = [] ∨ l.head? = some hash := by
    by_contra h
    rw [isDataRow_iff.mpr h] at hskip
    exact Bool.noConfusion hskip
  rcases hblank with rfl | hhash
  · exact ⟨0, le_rfl, fun fuel => by simp⟩
  · obtain ⟨t, rfl⟩ := List.head?_eq_some_iff.mp hhash
    refine ⟨1, by simp, fun fuel => ?_⟩
    exact sbatLoop_comment fuel
      (fun b hb => endsLine_of_textChar b (hl b hb)) hc

/-- What the walk has made of a row: the product stands NUL-terminated in the
part of the buffer left behind, the version is the value of the column. -/
def EntryOf (mem row : List UInt8) (e : SbatEntry) : Prop :=
  ∃ before, e.product = some before.length ∧
    before ++ (productOf row ++ [nul]) <+: mem ∧
    VersionColumn (secondColumn row) e.version

theorem EntryOf.mono {mem mem' row : List UInt8} {e : SbatEntry}
    (h : EntryOf mem row e) (hmem : mem <+: mem') : EntryOf mem' row e := by
  obtain ⟨before, hp, hpre, hv⟩ := h
  exact ⟨before, hp, hpre.trans hmem, hv⟩

/-- One line of a valid text: at most as many iterations as bytes, and one
more entry if it is a data row. -/
theorem sbatLoop_line (junk : List UInt8) {s l r : List UInt8}
    (hf : FirstLine s l r) (hrow : isDataRow l = true → SbatRow EndsInSbat l)
    (pre : List UInt8) (done zeros : List SbatEntry) :
    ∃ pre' entries k, pre <+: pre' ∧ k + r.length ≤ s.length ∧
      List.Forall₂ (EntryOf pre') ([l].filter isDataRow) entries ∧
      ∀ fuel, sbatLoop (fuel + k) (pre ++ (s.map crToLf ++ nul :: junk))
          pre.length (done ++ (List.replicate entries.length SbatEntry.zero
            ++ zeros)) done.length =
        sbatLoop fuel (pre' ++ (r.map crToLf ++ nul :: junk)) pre'.length
          ((done ++ entries) ++ zeros) (done ++ entries).length := by
  obtain ⟨j, hmap, hj⟩ := map_crToLf_firstLine hf
  have hlen : s.length = l.length + (j + r.length) := by
    have := congrArg List.length hmap
    simpa using this
  -- the byte behind the line: a line feed, or the NUL behind the last one
  obtain ⟨c, rest, hc, htail⟩ : ∃ c rest, endsLine c = true ∧
      List.replicate j lf ++ (r.map crToLf ++ nul :: junk) = c :: rest := by
    cases j with
    | zero =>
        rw [hj rfl]
        exact ⟨nul, junk, by decide, by simp⟩
    | succ j => exact ⟨lf, _, by decide, by rw [List.replicate_succ]; rfl⟩
  have hmem : pre ++ (s.map crToLf ++ nul :: junk)
      = pre ++ (l ++ c :: rest) := by
    rw [hmap, ← htail]
    simp
  by_cases hdata : isDataRow l = true
  · obtain ⟨pre', rest', v, hpre', hv, hrest', hloop⟩ :=
      sbatLoop_dataRow (hrow hdata) pre rest hc done zeros
    obtain ⟨j', hj', hrest⟩ : ∃ j', j' ≤ j ∧
        rest' = List.replicate j' lf ++ (r.map crToLf ++ nul :: junk) := by
      rcases hrest' with rfl | ⟨rfl, rfl⟩
      · exact ⟨j, le_rfl, htail.symm⟩
      · cases j with
        | zero =>
            rw [hj rfl] at htail
            simp at htail
        | succ j =>
            rw [List.replicate_succ, List.cons_append] at htail
            exact ⟨j, by omega, (List.cons.inj htail).2.symm⟩
    have hl : 1 ≤ l.length := by
      rw [isDataRow_iff, not_or] at hdata
      exact List.length_pos_iff.mpr hdata.1
    have hprefix : pre' <+: pre' ++ List.replicate j' lf :=
      List.prefix_append _ _
    refine ⟨pre' ++ List.replicate j' lf, [⟨some pre.length, v⟩], j' + 1, ?_,
      by omega, ?_, ?_⟩
    · exact ((List.prefix_append _ _).trans hpre').trans hprefix
    · rw [List.filter_cons_of_pos hdata, List.filter_nil]
      exact .cons ⟨pre, rfl, hpre'.trans hprefix, hv⟩ .nil
    · intro fuel
      have hstep := hloop (fuel + j')
      rw [hrest, sbatLoop_lfs] at hstep
      rw [hmem]
      simpa [← Nat.add_assoc] using hstep
  · rw [Bool.not_eq_true] at hdata
    obtain ⟨k, hk, hloop⟩ := sbatLoop_skipLine hf.textChar hdata pre rest hc
      (done ++ zeros) done.length
    refine ⟨(pre ++ l) ++ List.replicate j lf, [], j + k, ?_, by omega, ?_, ?_⟩
    · rw [List.append_assoc]
      exact List.prefix_append _ _
    · simp [hdata]
    · intro fuel
      have hstep := hloop (fuel + j)
      rw [← htail, sbatLoop_lfs] at hstep
      rw [hmem, ← htail]
      simpa [← Nat.add_assoc] using hstep

theorem sbatLoop_lines (junk : List UInt8) : ∀ {s : List UInt8}
    {ls : List (List UInt8)}, Lines s ls →
    (∀ l ∈ ls, isDataRow l = true → SbatRow EndsInSbat l) →
    ∀ (pre : List UInt8) (done zeros : List SbatEntry) (fuel : ℕ),
      s.length < fuel →
      ∃ pre' entries, pre <+: pre' ∧
        List.Forall₂ (EntryOf pre') (ls.filter isDataRow) entries ∧
        sbatLoop fuel (pre ++ (s.map crToLf ++ nul :: junk)) pre.length
          (done ++ (List.replicate (ls.filter isDataRow).length SbatEntry.zero
            ++ zeros)) done.length =
        .ok (pre' ++ nul :: junk, (done ++ entries) ++ zeros,
          (done ++ entries).length)
  | _, _, .nil, _, pre, done, zeros, fuel, hfuel => by
      refine ⟨pre, [], List.prefix_refl _, by simp, ?_⟩
      obtain ⟨f, rfl⟩ : ∃ f, fuel = f + 1 := ⟨fuel - 1, by simp at hfuel; omega⟩
      simp only [List.map_nil, List.nil_append, List.filter_nil,
        List.length_nil, List.replicate_zero, List.append_nil]
      rw [sbatLoop, load_append_cons]
      simp
  | _, _, @Lines.cons s l r ls hf hls, hrows, pre, done, zeros, fuel,
      hfuel => by
      obtain ⟨pre₁, e₁, k, hpre₁, hk, hent₁, hstep⟩ := sbatLoop_line junk hf
        (hrows l List.mem_cons_self) pre done
        (List.replicate (ls.filter isDataRow).length SbatEntry.zero ++ zeros)
      obtain ⟨pre₂, e₂, hpre₂, hent₂, hrun⟩ := sbatLoop_lines junk hls
        (fun x hx => hrows x (List.mem_cons_of_mem l hx)) pre₁ (done ++ e₁)
        zeros (fuel - k) (by omega)
      have hsplit : (l :: ls).filter isDataRow
          = [l].filter isDataRow ++ ls.filter isDataRow := by
        rw [← List.filter_append]
        rfl
      refine ⟨pre₂, e₁ ++ e₂, hpre₁.trans hpre₂, ?_, ?_⟩
      · rw [hsplit]
        exact List.rel_append (hent₁.imp fun _ _ h => h.mono hpre₂) hent₂
      · have hone := hstep (fuel - k)
        rw [Nat.sub_add_cancel (by omega), hrun] at hone
        rw [hsplit, List.length_append, hent₁.length_eq, List.replicate_add,
          List.append_assoc, hone, List.append_assoc done]

/-! ## The parser agrees with the validator -/

theorem nul_not_mem_of_lines : ∀ {s : List UInt8} {ls : List (List UInt8)},
    Lines s ls → nul ∉ s
  | _, _, .nil => by simp
  | _, _, @Lines.cons s l r ls hf hls => by
      have hr := nul_not_mem_of_lines hls
      have hl : nul ∉ l := by
        intro hmem
        exact absurd (hf.textChar nul hmem) (by decide)
      rcases hf.split with ⟨rfl, -, -⟩ | rfl | rfl
      · exact hl
      · simpa using ⟨hl, hr⟩
      · simpa using ⟨hl, hr⟩

/-- There is room in the array: every line but the last has its line feed. -/
theorem length_le_count_lf : ∀ {s : List UInt8} {ls : List (List UInt8)},
    Lines s ls → ls.length ≤ s.count lf + 1
  | _, _, .nil => by simp
  | _, _, @Lines.cons s l r ls hf hls => by
      have hr := length_le_count_lf hls
      rcases hf.split with ⟨rfl, rfl, -⟩ | rfl | rfl
      · rw [Lines.unique hls .nil]
        simp
      · simp only [List.length_cons, List.count_append, List.count_cons_self]
        omega
      · rw [List.count_append, List.count_cons_of_ne (by decide),
          List.count_cons_self, List.length_cons]
        omega

theorem cstrAt_of_prefix {mem before w : List UInt8} (hw : nul ∉ w)
    (h : before ++ (w ++ [nul]) <+: mem) :
    cstrAt mem before.length = .ok w := by
  obtain ⟨post, rfl⟩ := h
  have hassoc : before ++ (w ++ [nul]) ++ post
      = before ++ (w ++ nul :: post) := by simp
  rw [hassoc]
  exact cstrAt_append hw

/-- The array and the buffer of a parse say, in order, what the rows say:
entry `i` has the product and the version of row `i`, and the entry behind the
last row has a `NULL` product. -/
structure Represents (mem : List UInt8) (list : List SbatEntry)
    (rows : List (List UInt8)) : Prop where
  terminated : list[rows.length]? = some SbatEntry.zero
  entry : ∀ (i : ℕ) (row : List UInt8), rows[i]? = some row →
    ∃ e off, list[i]? = some e ∧ e.product = some off ∧
      cstrAt mem off = .ok (productOf row) ∧
      VersionColumn (secondColumn row) e.version

theorem nul_not_mem_productOf {l : List UInt8} (h : SbatRow EndsInSbat l) :
    nul ∉ productOf l := by
  obtain ⟨product, column, tail, v, rfl, -, -, hall, -⟩ := h
  rw [productOf, (takeWhile_product hall).1]
  intro hmem
  exact absurd (hall nul hmem) (by decide)

theorem represents_of_forall₂ {mem : List UInt8}
    {rows : List (List UInt8)} {entries rest : List SbatEntry}
    (hrows : ∀ row ∈ rows, SbatRow EndsInSbat row)
    (h : List.Forall₂ (EntryOf mem) rows entries) :
    Represents mem (entries ++ SbatEntry.zero :: rest) rows := by
  refine ⟨by simp [h.length_eq], ?_⟩
  intro i row hrow
  obtain ⟨hi, rfl⟩ := List.getElem?_eq_some_iff.mp hrow
  have hi' : i < entries.length := h.length_eq ▸ hi
  obtain ⟨before, hp, hprefix, hv⟩ := h.get hi hi'
  refine ⟨entries[i], before.length, ?_, hp, ?_, hv⟩
  · rw [List.getElem?_append_left hi']
    exact List.getElem?_eq_getElem hi'
  · exact cstrAt_of_prefix
      (nul_not_mem_productOf (hrows _ (List.getElem_mem hi))) hprefix

/-- On a text the validator accepts, the array holds the entries of the data
rows, in order, and behind them at least one `NULL` product. -/
theorem getSbatEntries_reads {text : List UInt8} {n : ℕ} (junk : List UInt8)
    (hn : 0 < n) (hvalid : nawamSecurityTextValid text .sbat = n) :
    ∃ mem entries k ls, getSbatEntries true (text ++ nul :: junk)
        = .ok (mem, some (entries ++
          SbatEntry.zero :: List.replicate k SbatEntry.zero)) ∧
      Lines text ls ∧ (ls.filter isDataRow).length = n ∧
      (∀ row ∈ ls.filter isDataRow, SbatRow EndsInSbat row) ∧
      List.Forall₂ (EntryOf mem) (ls.filter isDataRow) entries := by
  obtain ⟨-, -, ls, hls, hrows, hcount⟩ :=
    (nawamSecurityTextValid_eq_iff hn).mp hvalid
  rw [List.countP_eq_length_filter] at hcount
  have hnul := nul_not_mem_of_lines hls
  have hcstr : cstrAt (text ++ nul :: junk) 0 = .ok text := by
    show cstrAt (text ++ nul :: junk) ([] : List UInt8).length = .ok text
    exact cstrAt_of_prefix hnul (by simp)
  have hroom : (ls.filter isDataRow).length ≤ text.count lf + 1 :=
    (List.length_filter_le _ _).trans (length_le_count_lf hls)
  obtain ⟨k, hk⟩ : ∃ k, 1 + text.count lf + 1
      = (ls.filter isDataRow).length + (k + 1) :=
    ⟨text.count lf + 1 - (ls.filter isDataRow).length, by omega⟩
  obtain ⟨mem, entries, -, hent, hrun⟩ := sbatLoop_lines junk hls hrows [] []
    (List.replicate (k + 1) SbatEntry.zero)
    ((text.map crToLf ++ nul :: junk).length + 1) (by
      rw [List.length_append, List.length_map]
      omega)
  refine ⟨mem ++ nul :: junk, entries, k, ls, ?_, hls, hcount, ?_,
    hent.imp fun _ _ h => h.mono (List.prefix_append _ _)⟩
  · unfold getSbatEntries
    rw [hcstr]
    simp only [C.ok_bind, List.drop_left, Bool.not_true, Bool.false_eq_true,
      if_false]
    rw [hk, List.replicate_add]
    simp only [List.nil_append, List.length_nil] at hrun
    rw [hrun]
    have hpos : entries.length ≠ 0 := by
      rw [← hent.length_eq]
      omega
    simp [hpos, List.replicate_succ]
  · intro row hrow
    obtain ⟨hmem, hdata⟩ := List.mem_filter.mp hrow
    exact hrows row hmem hdata

/-- **Validator and parser agree.** On every buffer that holds an accepted
text of `n` data rows and a NUL behind it, `GetSbatEntries` returns an array
of exactly `n` entries and a terminating one, and entry `i` is data row `i`:
its product is the text before the row's first comma, its version the value of
the row's second column. -/
theorem getSbatEntries_of_valid (text junk : List UInt8) (n : ℕ)
    (hn : 0 < n) (hvalid : nawamSecurityTextValid text .sbat = n) :
    ∃ mem list ls, getSbatEntries true (text ++ nul :: junk)
        = .ok (mem, some list) ∧
      Lines text ls ∧ (ls.filter isDataRow).length = n ∧
      Represents mem list (ls.filter isDataRow) := by
  obtain ⟨mem, entries, k, ls, hrun, hls, hcount, hrows, hent⟩ :=
    getSbatEntries_reads junk hn hvalid
  exact ⟨mem, _, ls, hrun, hls, hcount, represents_of_forall₂ hrows hent⟩

/-- A text with a comment, a dated row, CRLF, a hexadecimal version and no
line end behind the last row. -/
def sbatFixture : List UInt8 :=
  text "#f\nsbat,1,2025051000\r\nshim,4\nBOOT,0x70"

theorem getSbatEntries_of_valid_fixture :
    nawamSecurityTextValid sbatFixture .sbat = 3 ∧
    ∃ mem list ls, getSbatEntries true (sbatFixture ++ [nul, nul])
        = .ok (mem, some list) ∧
      Lines sbatFixture ls ∧ (ls.filter isDataRow).length = 3 ∧
      Represents mem list (ls.filter isDataRow) :=
  ⟨by decide +kernel,
    getSbatEntries_of_valid sbatFixture [nul] 3 (by decide) (by decide +kernel)⟩

end Nawam
