import Nawam.Parser.Sbat
import Nawam.Parser.Pe

/-!
# The SBAT revocation check

`IsRevokedBySbat` of `hash.c`. The `.sbat` section of a bootloader is walked
by a second in-place tokenizer, the sibling of `GetSbatEntries`: product,
version, rest of the line, and every row is looked up in the table of minimum
versions.

The sibling tests whether the version ended the line before it skips the rest
of the line. This one does not: behind a row of two columns it stands at the
start of the next row and skips that one. `sbatScan_rows` says exactly which
rows are read (`readRows`), and `mem_readRows_iff` what that means for the
section: a row goes unread when the number of two-column rows directly before
it is odd.
-/

namespace Nawam

open Ascii

/-- The minimum versions: `sbat_entries` up to its `NULL` product, each
product as the C string it points to. -/
abbrev SbatTable : Type := List (List UInt8 × ℕ)

/-- Read the array of a parse up to its terminating entry. -/
def sbatTableOf (mem : List UInt8) : List SbatEntry → C SbatTable
  | [] => .error .outOfBounds
  | e :: es =>
      match e.product with
      | none => return []
      | some off => do
          let product ← cstrAt mem off
          let table ← sbatTableOf mem es
          return (product, e.version) :: table

def dbSbatLevelTxt : List UInt8 :=
  text "sbat,1,2025051000\nshim,4\ngrub,5\ngrub.proxmox,2\n" ++
    text "BOOTMGRSECURITYVERSIONNUMBER,0x70000"

/-- The table in use: the one there is, else the embedded one. `strdup` and
`calloc` are whether the two allocations of the fallback succeed; without
them `assert(sbat_entries != NULL)` fails. -/
def currentTable (strdup calloc : Bool) (entries : Option SbatTable) :
    C SbatTable :=
  match entries with
  | some table => return table
  | none => do
      assertThat strdup
      let (mem, list) ← getSbatEntries calloc (dbSbatLevelTxt ++ [nul])
      match list with
      | none => .error .assertion
      | some list => sbatTableOf mem list

/-- `strcmp(entry.product, ...) == 0 && entry.version < ...` for some entry of
the table. -/
def belowMinimum (table : SbatTable) (product : List UInt8) (version : ℕ) :
    Bool :=
  table.any fun e => product = e.1 && version < e.2

/-- The walk over the section, one row per iteration, from offset `i` of the
image. -/
def sbatScan (table : SbatTable) : ℕ → List UInt8 → ℕ → C (List UInt8 × Bool)
  | 0, _, _ => .error .outOfFuel
  | fuel + 1, mem, i => do
      let c ← load mem i
      if c = nul then return (mem, false)
      else
        let i ← scanFrom (· ≠ lf) mem i
        let c ← load mem i
        if c = nul then return (mem, false)
        else
          let product := i
          let i ← scanFrom endsColumn mem i
          let c ← load mem i
          if c = nul ∨ c = lf then return (mem, false)
          else
            let mem ← store mem i nul
            let versionStr := i + 1
            let i ← scanFrom endsColumn mem versionStr
            let mem ← store mem i nul
            let str ← cstrAt mem versionStr
            let version := (atoi str % 2 ^ 32).toNat
            -- the rest of the line, whatever ended the version
            let i ← scanFrom endsLine mem (i + 1)
            if version = 0 then sbatScan table fuel mem i
            else
              let name ← cstrAt mem product
              if belowMinimum table name version then return (mem, true)
              else sbatScan table fuel mem i

/-- `".sbat"` -/
def sbatSectionName : List UInt8 := text ".sbat"

/-- `IsRevokedBySbat`: the image afterwards and the verdict. -/
def isRevokedBySbat (strdup calloc : Bool) (entries : Option SbatTable)
    (buf : List UInt8) : C (List UInt8 × Bool) := do
  let table ← currentTable strdup calloc entries
  match ← getPeSection buf sbatSectionName with
  | none => return (buf, false)
  | some (sbat, _) =>
      if buf.length ≤ sbat then return (buf, false)
      else sbatScan table (buf.length + 1) buf sbat

/-! ## Section contents -/

/-- A row of a `.sbat` section: `product,version` or, with `more`,
`product,version,more`. The fields carry what makes it one row of the section
with a decimal version below `2 ^ 31`. -/
structure SbatLine where
  product : List UInt8
  digits : List UInt8
  more : Option (List UInt8)
  version : ℕ
  product_ok : ∀ c ∈ product, endsColumn c = false
  numeral : Numeral 10 digits version
  version_lt : version < 2 ^ 31
  more_ok : ∀ m ∈ more, ∀ c ∈ m, endsLine c = false

namespace SbatLine

/-- What stands between the version and the line feed. -/
def tail (r : SbatLine) : List UInt8 :=
  match r.more with
  | none => []
  | some m => comma :: m

def body (r : SbatLine) : List UInt8 := r.product ++ comma :: (r.digits ++ r.tail)

def twoColumns (r : SbatLine) : Bool := r.more.isNone

/-- The row asks for less than the minimum version of its product. -/
def revoked (table : SbatTable) (r : SbatLine) : Prop :=
  r.version ≠ 0 ∧ ∃ e ∈ table, e.1 = r.product ∧ r.version < e.2

end SbatLine

def sectionText (rows : List SbatLine) : List UInt8 :=
  rows.flatMap fun r => r.body ++ [lf]

/-- The rows the walk reads; `skip` is whether the next one is passed over. -/
def readRows : Bool → List SbatLine → List SbatLine
  | _, [] => []
  | true, _ :: rs => readRows false rs
  | false, r :: rs => r :: readRows r.twoColumns rs

/-! ## One row -/

theorem SbatLine.digits_ok (r : SbatLine) :
    ∀ c ∈ r.digits, endsColumn c = false := by
  intro c hc
  exact endsColumn_of_digit c
    (isDigitOf_mono (by decide) (isDigitOf_of_numeralFrom r.numeral.2 c hc))

theorem SbatLine.body_ne_lf (r : SbatLine) : ∀ c ∈ r.body, c ≠ nul ∧ c ≠ lf := by
  intro c hc
  simp only [SbatLine.body, List.mem_append, List.mem_cons] at hc
  rcases hc with hc | rfl | hc | hc
  · exact (endsColumn_false_iff.mp (r.product_ok c hc)).2
  · decide
  · exact (endsColumn_false_iff.mp (r.digits_ok c hc)).2
  · unfold SbatLine.tail at hc
    cases hm : r.more with
    | none => simp [hm] at hc
    | some m =>
        simp only [hm, List.mem_cons] at hc
        rcases hc with rfl | hc
        · decide
        · exact endsLine_false_iff.mp (r.more_ok m (by rw [hm]; rfl) c hc)

theorem belowMinimum_iff {table : SbatTable} {r : SbatLine}
    (h : r.version ≠ 0) :
    belowMinimum table r.product r.version = true ↔ r.revoked table := by
  simp only [belowMinimum, List.any_eq_true, Bool.and_eq_true,
    decide_eq_true_eq, SbatLine.revoked, ne_eq, h, not_false_eq_true, true_and]
  constructor
  · rintro ⟨e, he, hp, hv⟩
    exact ⟨e, he, hp.symm, hv⟩
  · rintro ⟨e, he, hp, hv⟩
    exact ⟨e, he, hp.symm, hv⟩

/-- The version as the code stores it, `(uint32_t)atoi(version_str)`. -/
theorem SbatLine.atoi_digits (r : SbatLine) :
    (atoi r.digits % 2 ^ 32).toNat = r.version := by
  have hlt := r.version_lt
  rw [atoi_decimal r.numeral hlt]
  omega

/-- The head of an iteration: line feeds are passed over, and a row is cut at
its first comma. -/
theorem sbatScan_head (table : SbatTable) (fuel : ℕ) (pre : List UInt8)
    (k : ℕ) (r : SbatLine) {d : UInt8} (hd : endsColumn d = true)
    (rest : List UInt8) :
    sbatScan table (fuel + 1) (pre ++ (List.replicate k lf ++
        (r.product ++ comma :: (r.digits ++ d :: rest)))) pre.length =
      scanFrom endsLine
        (rowDone (pre ++ List.replicate k lf) r.product r.digits ++ rest)
        (rowDone (pre ++ List.replicate k lf) r.product r.digits).length >>=
      fun i =>
        if r.version = 0 then sbatScan table fuel
          (rowDone (pre ++ List.replicate k lf) r.product r.digits ++ rest) i
        else if belowMinimum table r.product r.version then .ok
          (rowDone (pre ++ List.replicate k lf) r.product r.digits ++ rest,
            true)
        else sbatScan table fuel
          (rowDone (pre ++ List.replicate k lf) r.product r.digits ++ rest) i
      := by
  set q := pre ++ List.replicate k lf with hq
  set text := r.product ++ comma :: (r.digits ++ d :: rest) with htext
  -- the first byte of the row
  obtain ⟨b, bs, hb, hbn, hbl⟩ : ∃ b bs, text = b :: bs ∧ b ≠ nul ∧ b ≠ lf := by
    cases hp : r.product with
    | nil => exact ⟨comma, _, by rw [htext, hp]; rfl, by decide, by decide⟩
    | cons b bs =>
        have hbok := endsColumn_false_iff.mp
          (r.product_ok b (by rw [hp]; exact List.mem_cons_self))
        exact ⟨b, _, by rw [htext, hp]; rfl, hbok.2.1, hbok.2.2⟩
  have hmem : pre ++ (List.replicate k lf ++ text) = q ++ text := by simp [hq]
  obtain ⟨c, hc, hcn⟩ : ∃ c, load (q ++ text) pre.length = .ok c ∧ c ≠ nul := by
    rw [← hmem]
    cases k with
    | zero => exact ⟨b, by rw [hb]; simp, hbn⟩
    | succ k =>
        rw [List.replicate_succ, List.cons_append]
        exact ⟨lf, load_append_cons _ _ _, by decide⟩
  have hscan₀ : scanFrom (fun x => decide (x ≠ lf)) (q ++ text) pre.length
      = .ok q.length := by
    rw [← hmem, hb, scanFrom_append]
    · simp [hq]
    · intro x hx
      simp [List.eq_of_mem_replicate hx]
    · simpa using hbl
  have hload₀ : load (q ++ text) q.length = .ok b := by
    rw [hb]
    exact load_append_cons _ _ _
  obtain ⟨mem, i, j, htok⟩ := rowTokens q rest r.product_ok r.digits_ok hd
  rw [sbatScan, hmem, hc]
  simp only [C.ok_bind]
  rw [if_neg hcn, hscan₀]
  simp only [C.ok_bind]
  rw [hload₀]
  simp only [C.ok_bind]
  rw [if_neg hbn, htext]
  simp only [htok.scanProduct, htok.loadComma, C.ok_bind]
  rw [if_neg (by decide)]
  simp only [htok.cutProduct, htok.scanColumn, htok.cutColumn, htok.columnStr,
    htok.productStr, htok.done, r.atoi_digits, C.ok_bind, C.pure_eq]

/-- The bytes of a row up to and including the byte that ended its version. -/
theorem sectionText_cons (r : SbatLine) (rows : List SbatLine) :
    sectionText (r :: rows) = r.body ++ lf :: sectionText rows := by
  simp [sectionText]

/-- Where the scan for the end of the line stops: at the row's own line feed
if it has more columns, else at the line feed of the row behind it, or at the
NUL behind the last row. -/
theorem sbatScan_restOfLine (pre junk : List UInt8) (r : SbatLine)
    (rows : List SbatLine) :
    ∃ d rest pre' k rows', endsColumn d = true ∧
      r.tail ++ lf :: (sectionText rows ++ nul :: junk) = d :: rest ∧
      rows'.length ≤ rows.length ∧
      readRows false rows' = readRows r.twoColumns rows ∧
      pre ++ rest = pre' ++ (List.replicate k lf ++
        (sectionText rows' ++ nul :: junk)) ∧
      scanFrom endsLine (pre ++ rest) pre.length = .ok pre'.length := by
  have hlf : endsLine lf = true := by decide
  cases hm : r.more with
  | some m =>
      have htail : r.tail = comma :: m := by simp [SbatLine.tail, hm]
      have htwo : r.twoColumns = false := by simp [SbatLine.twoColumns, hm]
      refine ⟨comma, m ++ lf :: (sectionText rows ++ nul :: junk), pre ++ m, 1,
        rows, by decide, by rw [htail]; rfl, le_rfl, by rw [htwo], by simp, ?_⟩
      rw [scanFrom_append (r.more_ok m (by rw [hm]; rfl)) hlf]
      simp
  | none =>
      have htail : r.tail = [] := by simp [SbatLine.tail, hm]
      have htwo : r.twoColumns = true := by simp [SbatLine.twoColumns, hm]
      cases rows with
      | nil =>
          refine ⟨lf, nul :: junk, pre, 0, [], by decide, by rw [htail]; rfl,
            le_rfl, by rw [htwo]; rfl, by simp [sectionText], ?_⟩
          show scanFrom endsLine (pre ++ ([] ++ nul :: junk)) pre.length = _
          rw [scanFrom_append (by simp) (by decide)]
          simp
      | cons r' rows' =>
          have hbody : ∀ c ∈ r'.body, endsLine c = false :=
            fun c hc => endsLine_false_iff.mpr (r'.body_ne_lf c hc)
          refine ⟨lf, sectionText (r' :: rows') ++ nul :: junk, pre ++ r'.body,
            1, rows', by decide, by rw [htail]; rfl, by simp, by rw [htwo]; rfl,
            by simp [sectionText_cons], ?_⟩
          rw [sectionText_cons, List.append_assoc, List.cons_append,
            scanFrom_append hbody hlf]
          simp

/-- One iteration: a revoked row ends the walk, any other one moves it to the
next row that is read. -/
theorem sbatScan_row (table : SbatTable) (pre junk : List UInt8) (k : ℕ)
    (r : SbatLine) (rows : List SbatLine) :
    ∃ pre' k' rows', rows'.length ≤ rows.length ∧
      readRows false rows' = readRows r.twoColumns rows ∧
      ∀ fuel,
        (r.revoked table → ∃ mem, sbatScan table (fuel + 1)
          (pre ++ (List.replicate k lf ++ (sectionText (r :: rows) ++
            nul :: junk))) pre.length = .ok (mem, true)) ∧
        (¬ r.revoked table → sbatScan table (fuel + 1)
          (pre ++ (List.replicate k lf ++ (sectionText (r :: rows) ++
            nul :: junk))) pre.length =
          sbatScan table fuel (pre' ++ (List.replicate k' lf ++
            (sectionText rows' ++ nul :: junk))) pre'.length) := by
  obtain ⟨d, rest, pre', k', rows', hd, htext, hlen, hread, hmem, hscan⟩ :=
    sbatScan_restOfLine
      (rowDone (pre ++ List.replicate k lf) r.product r.digits) junk r rows
  have hsection : sectionText (r :: rows) ++ nul :: junk
      = r.product ++ comma :: (r.digits ++ d :: rest) := by
    rw [sectionText_cons, ← htext]
    simp [SbatLine.body]
  refine ⟨pre', k', rows', hlen, hread, fun fuel => ?_⟩
  rw [hsection, sbatScan_head table fuel pre k r hd rest, hscan, ← hmem]
  simp only [C.ok_bind]
  constructor
  · intro hrev
    rw [if_neg hrev.1, if_pos ((belowMinimum_iff hrev.1).mpr hrev)]
    exact ⟨_, rfl⟩
  · intro hrev
    by_cases hzero : r.version = 0
    · rw [if_pos hzero]
    · rw [if_neg hzero,
        if_neg (fun h => hrev ((belowMinimum_iff hzero).mp h))]

/-! ## The whole section -/

/-- At the NUL, with line feeds before it or not, the walk ends. -/
theorem sbatScan_end (table : SbatTable) (fuel : ℕ) (pre junk : List UInt8)
    (k : ℕ) :
    sbatScan table (fuel + 1) (pre ++ (List.replicate k lf ++
        (sectionText [] ++ nul :: junk))) pre.length =
      .ok (pre ++ (List.replicate k lf ++ (sectionText [] ++ nul :: junk)),
        false) := by
  show sbatScan table (fuel + 1) (pre ++ (List.replicate k lf ++
    nul :: junk)) pre.length = .ok (pre ++ (List.replicate k lf ++
    nul :: junk), false)
  cases k with
  | zero => simp [sbatScan]
  | succ k =>
      have hscan : scanFrom (fun x => decide (x ≠ lf))
          (pre ++ (List.replicate (k + 1) lf ++ nul :: junk)) pre.length
          = .ok (pre.length + (List.replicate (k + 1) lf).length) := by
        apply scanFrom_append
        · intro x hx
          simp [List.eq_of_mem_replicate hx]
        · decide
      have hload : load (pre ++ (List.replicate (k + 1) lf ++ nul :: junk))
          (pre.length + (List.replicate (k + 1) lf).length) = .ok nul := by
        rw [← List.append_assoc, ← List.length_append]
        exact load_append_cons _ _ _
      have hhead : load (pre ++ (List.replicate (k + 1) lf ++ nul :: junk))
          pre.length = .ok lf := by
        rw [List.replicate_succ, List.cons_append]
        exact load_append_cons _ _ _
      rw [sbatScan, hhead]
      simp only [C.ok_bind]
      rw [if_neg (by decide), hscan]
      simp only [C.ok_bind]
      rw [hload]
      rfl

/-- The walk finds a revoked row exactly when one of the rows it reads is
revoked. -/
theorem sbatScan_rows (table : SbatTable) (junk : List UInt8) :
    ∀ (fuel : ℕ) (rows : List SbatLine) (pre : List UInt8) (k : ℕ),
      rows.length < fuel →
      ∃ mem b, sbatScan table fuel (pre ++ (List.replicate k lf ++
          (sectionText rows ++ nul :: junk))) pre.length = .ok (mem, b) ∧
        (b = true ↔ ∃ r ∈ readRows false rows, r.revoked table) := by
  intro fuel
  induction fuel with
  | zero => intro rows _ _ h; exact absurd h (by simp)
  | succ fuel ih =>
      intro rows pre k hfuel
      cases rows with
      | nil =>
          exact ⟨_, false, sbatScan_end table fuel pre junk k,
            by simp [readRows]⟩
      | cons r rows =>
          obtain ⟨pre', k', rows', hlen, hread, hstep⟩ :=
            sbatScan_row table pre junk k r rows
          obtain ⟨hrev, hskip⟩ := hstep fuel
          by_cases h : r.revoked table
          · obtain ⟨mem, hmem⟩ := hrev h
            refine ⟨mem, true, hmem, ?_⟩
            simp only [true_iff]
            exact ⟨r, List.mem_cons_self, h⟩
          · rw [List.length_cons] at hfuel
            obtain ⟨mem, b, hrun, hb⟩ := ih rows' pre' k' (by omega)
            refine ⟨mem, b, (hskip h).trans hrun, ?_⟩
            rw [hb, hread]
            simp [readRows, h]

/-! ## Which rows are read -/

/-- A row is shadowed by the rows before it when the number of two-column
rows directly before it is odd. -/
def Shadowed (before : List SbatLine) : Prop :=
  Odd (before.reverse.takeWhile SbatLine.twoColumns).length

instance (before : List SbatLine) : Decidable (Shadowed before) :=
  inferInstanceAs (Decidable (Odd _))

theorem shadowed_concat (before : List SbatLine) (r : SbatLine) :
    Shadowed (before ++ [r]) ↔ r.twoColumns = true ∧ ¬ Shadowed before := by
  unfold Shadowed
  rw [List.reverse_append, List.reverse_singleton, List.singleton_append,
    List.takeWhile_cons]
  by_cases h : r.twoColumns = true
  · simp only [h, if_true, List.length_cons, true_and]
    exact Nat.odd_add_one
  · simp [h]

/-- The walk reads exactly the rows that are not shadowed. -/
theorem mem_readRows_iff : ∀ (rows before : List SbatLine) (r : SbatLine),
    r ∈ readRows (decide (Shadowed before)) rows ↔
      ∃ pre post, rows = pre ++ r :: post ∧ ¬ Shadowed (before ++ pre)
  | [], before, r => by simp [readRows]
  | x :: rows, before, r => by
      have hnext := shadowed_concat before x
      have ih := mem_readRows_iff rows (before ++ [x]) r
      -- the row itself, or one of the rows behind it
      have hsplit : (∃ pre post, x :: rows = pre ++ r :: post ∧
            ¬ Shadowed (before ++ pre)) ↔
          (x = r ∧ ¬ Shadowed before) ∨
            ∃ pre post, rows = pre ++ r :: post ∧
              ¬ Shadowed ((before ++ [x]) ++ pre) := by
        constructor
        · rintro ⟨pre, post, heq, hno⟩
          cases pre with
          | nil =>
              obtain ⟨hx, -⟩ := List.cons.inj heq
              exact Or.inl ⟨hx, by simpa using hno⟩
          | cons y pre =>
              obtain ⟨rfl, hrest⟩ := List.cons.inj heq
              exact Or.inr ⟨pre, post, hrest, by simpa using hno⟩
        · rintro (⟨rfl, hno⟩ | ⟨pre, post, rfl, hno⟩)
          · exact ⟨[], rows, rfl, by simpa using hno⟩
          · exact ⟨x :: pre, post, rfl, by simpa using hno⟩
      rw [hsplit, ← ih]
      by_cases hsh : Shadowed before
      · have hx : ¬ Shadowed (before ++ [x]) := fun h => (hnext.mp h).2 hsh
        simp [hsh, hx, readRows]
      · have hx : decide (Shadowed (before ++ [x])) = x.twoColumns := by
          by_cases htwo : x.twoColumns = true
          · simp [hnext, htwo, hsh]
          · simp [hnext, htwo]
        simp only [hsh, decide_false, readRows, List.mem_cons, hx,
          not_false_eq_true, and_true]
        constructor
        · rintro (rfl | h)
          · exact Or.inl rfl
          · exact Or.inr h
        · rintro (rfl | h)
          · exact Or.inl rfl
          · exact Or.inr h

/-- The rows are the contents of the image's `.sbat` section, with a NUL
behind the last line feed. -/
def HasSbatSection (buf : List UInt8) (rows : List SbatLine) : Prop :=
  ∃ sbat len junk, getPeSection buf sbatSectionName = .ok (some (sbat, len)) ∧
    buf.drop sbat = sectionText rows ++ nul :: junk

/-- If a row is revoked, then one that is not shadowed is. -/
def RevocationVisible (table : SbatTable) (rows : List SbatLine) : Prop :=
  (∃ r ∈ rows, r.revoked table) →
    ∃ pre r post, rows = pre ++ r :: post ∧ ¬ Shadowed pre ∧ r.revoked table

theorem length_le_sectionText : ∀ rows : List SbatLine,
    rows.length ≤ (sectionText rows).length
  | [] => by simp
  | r :: rows => by
      have := length_le_sectionText rows
      rw [sectionText_cons]
      simp only [List.length_cons, List.length_append]
      omega

/-- The verdict is about the rows that are not shadowed. -/
theorem isRevokedBySbat_eq (strdup calloc : Bool) (table : SbatTable)
    {buf : List UInt8} {rows : List SbatLine} (h : HasSbatSection buf rows) :
    ∃ buf' b, isRevokedBySbat strdup calloc (some table) buf
        = .ok (buf', b) ∧
      (b = true ↔ ∃ pre r post, rows = pre ++ r :: post ∧ ¬ Shadowed pre ∧
        r.revoked table) := by
  obtain ⟨sbat, len, junk, hsection, hdrop⟩ := h
  have hlt : sbat < buf.length := by
    by_contra hge
    rw [List.drop_eq_nil_of_le (by omega)] at hdrop
    simp at hdrop
  have hbuf : buf = buf.take sbat ++ (List.replicate 0 lf ++
      (sectionText rows ++ nul :: junk)) := by
    rw [List.replicate_zero, List.nil_append, ← hdrop, List.take_append_drop]
  have hfuel : rows.length < buf.length + 1 := by
    have hrows := length_le_sectionText rows
    have hlen := congrArg List.length hbuf
    simp only [List.length_append, List.length_cons] at hlen
    omega
  obtain ⟨mem, b, hrun, hb⟩ := sbatScan_rows table junk (buf.length + 1) rows
    (buf.take sbat) 0 hfuel
  refine ⟨mem, b, ?_, ?_⟩
  · rw [← hbuf, List.length_take, min_eq_left hlt.le] at hrun
    unfold isRevokedBySbat
    simp only [currentTable, C.pure_eq, C.ok_bind, hsection]
    rw [if_neg (by omega), hrun]
  · rw [hb]
    constructor
    · rintro ⟨r, hr, hrev⟩
      have hnil : decide (Shadowed []) = false := by decide
      rw [← hnil, mem_readRows_iff] at hr
      obtain ⟨pre, post, heq, hno⟩ := hr
      exact ⟨pre, r, post, heq, by simpa using hno, hrev⟩
    · rintro ⟨pre, r, post, heq, hno, hrev⟩
      refine ⟨r, ?_, hrev⟩
      have hnil : decide (Shadowed []) = false := by decide
      rw [← hnil, mem_readRows_iff]
      exact ⟨pre, post, heq, by simpa using hno⟩

/-- The verdict on an image whose section holds `rows` is the right one: the
check says "revoked" exactly when some row is. -/
def VerdictExact (strdup calloc : Bool) (table : SbatTable)
    (buf : List UInt8) (rows : List SbatLine) : Prop :=
  (∃ buf', isRevokedBySbat strdup calloc (some table) buf = .ok (buf', true))
    ↔ ∃ r ∈ rows, r.revoked table

/-- **The check is exact when no revocation is shadowed**: it always returns,
and its verdict is right if and only if a revoked row, should there be one, is
not hidden behind an odd number of two-column rows, or another revoked row is
not. -/
theorem verdictExact_iff (strdup calloc : Bool) (table : SbatTable)
    (buf : List UInt8) (rows : List SbatLine) (h : HasSbatSection buf rows) :
    (∃ buf' b, isRevokedBySbat strdup calloc (some table) buf
        = .ok (buf', b)) ∧
      (VerdictExact strdup calloc table buf rows ↔
        RevocationVisible table rows) := by
  obtain ⟨buf', b, heq, hb⟩ := isRevokedBySbat_eq strdup calloc table h
  have htrue : (∃ buf', isRevokedBySbat strdup calloc (some table) buf
      = .ok (buf', true)) ↔ b = true := by
    rw [heq]
    simp
  refine ⟨⟨buf', b, heq⟩, ?_⟩
  unfold VerdictExact RevocationVisible
  rw [htrue, hb]
  constructor
  · exact fun hiff => hiff.mpr
  · intro hvisible
    refine ⟨?_, hvisible⟩
    rintro ⟨pre, r, post, rfl, -, hrev⟩
    exact ⟨r, by simp, hrev⟩

/-! ## A bootloader that gets through -/

/-- `sbat,1` -/
def sbatOneLine : SbatLine where
  product := sbatName
  digits := [49]
  more := none
  version := 1
  product_ok := by decide +kernel
  numeral := by decide
  version_lt := by decide
  more_ok := by simp

/-- `shim,1` -/
def shimOneLine : SbatLine where
  product := text "shim"
  digits := [49]
  more := none
  version := 1
  product_ok := by decide +kernel
  numeral := by decide
  version_lt := by decide
  more_ok := by simp

/-- A PE32 image with one section, `.sbat`, holding the given bytes. -/
def sbatImage (content : List UInt8) : List UInt8 :=
  -- DOS header, with the NT headers at 0x40
  [0x4d, 0x5a] ++ List.replicate 58 0 ++ [0x40, 0, 0, 0] ++
  -- signature, file header (I386, one section), optional header
  [0x50, 0x45, 0, 0, 0x4c, 0x01, 1, 0] ++ List.replicate 240 0 ++
  -- the section header: data at 352
  sectionName sbatSectionName ++ List.replicate 8 0 ++
  [64, 0, 0, 0, 0x60, 0x01, 0, 0] ++ List.replicate 16 0 ++ content

/-- The minimum version of `shim` is 4. -/
def shimTable : SbatTable := [(text "shim", 4)]

def shadowedImage : List UInt8 :=
  sbatImage (sectionText [sbatOneLine, shimOneLine] ++ [nul])

theorem hasSbatSection_shadowedImage :
    HasSbatSection shadowedImage [sbatOneLine, shimOneLine] :=
  ⟨352, 64, [], by decide +kernel, by decide +kernel⟩

theorem not_verdictExact_shadowedImage :
    HasSbatSection shadowedImage [sbatOneLine, shimOneLine] ∧
    ¬ VerdictExact true true shimTable shadowedImage
      [sbatOneLine, shimOneLine] := by
  refine ⟨hasSbatSection_shadowedImage, ?_⟩
  intro hexact
  have hrevoked : shimOneLine.revoked shimTable :=
    ⟨by decide, (text "shim", 4), by simp [shimTable], rfl,
      by decide⟩
  obtain ⟨buf', hbuf'⟩ := hexact.mpr ⟨shimOneLine, by simp, hrevoked⟩
  have hfalse : (isRevokedBySbat true true (some shimTable) shadowedImage).map
      Prod.snd = .ok false := by decide +kernel
  rw [hbuf'] at hfalse
  simp [Except.map] at hfalse

/-- With the rows the other way round the revocation is seen. -/
theorem verdictExact_shimFirst :
    RevocationVisible shimTable [shimOneLine, sbatOneLine] ∧
    VerdictExact true true shimTable
      (sbatImage (sectionText [shimOneLine, sbatOneLine] ++ [nul]))
      [shimOneLine, sbatOneLine] := by
  have hvisible : RevocationVisible shimTable [shimOneLine, sbatOneLine] := by
    intro _
    refine ⟨[], shimOneLine, [sbatOneLine], rfl, by decide, by decide, ?_⟩
    exact ⟨(text "shim", 4), by simp [shimTable], rfl,
      by decide⟩
  refine ⟨hvisible, ((verdictExact_iff true true shimTable _ _ ?_).2).mpr
    hvisible⟩
  exact ⟨352, 64, [], by decide +kernel, by decide +kernel⟩

end Nawam
