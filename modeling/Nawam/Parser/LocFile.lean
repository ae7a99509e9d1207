import Mathlib.Data.Set.Finite.Basic
import Mathlib.Order.Interval.Finset.Nat
import Nawam.Base.Chunks
import Nawam.Base.Recursion
import Nawam.Parser.LocReader

/-!
# Loading a localization

`get_supported_locales` goes through a localization file once and notes for every
locale the offsets between which its commands are. `get_loc_data_file` reads the
commands of one of them and hands them to `dispatch_loc_cmd`, which comes back to
it for the base of a locale. The first locale is the default one: it is loaded
before any other, into a table of its own, and a base is not followed then.

Nothing keeps a locale from being its own base, so whether a load comes to an end
depends on the file: it does exactly if its locale is not led by bases into a
cycle of them (`getLocDataFile_ends_iff`).
-/

namespace Nawam

open Ascii Relation

/-! ## The list of locales -/

/-- A locale in `locale_list`: its command, `num[0]` and `num[1]`, and the mask that
is kept in `ctrl_id`. -/
structure Locale where
  cmd : LocCmd
  start : ℕ
  stop : ℕ
  attributes : ℕ
deriving DecidableEq

/-- `lcmd->txt[0]` -/
def Locale.name (l : Locale) : List UInt8 := l.cmd.txt.headD []

/-- The variables of the loop of `get_supported_locales`. -/
structure LocaleScan where
  /-- the locales that are complete -/
  locales : List Locale
  /-- `last_lcmd` -/
  last : Option Locale
  /-- `version_line_nr != 0` -/
  version : Bool
  baseMajor : ℕ
  baseMinor : ℕ

namespace LocaleScan

def init : LocaleScan := ⟨[], none, false, 2 ^ 32 - 1, 2 ^ 32 - 1⟩

/-- The block of the last locale ends; one without a version is ignored. -/
def finish (scan : LocaleScan) (pos : ℕ) : List Locale :=
  match scan.last with
  | some l => if scan.version then scan.locales ++ [{ l with stop := pos }] else scan.locales
  | none => scan.locales

/-- `LC_ATTRIBUTES`: there is one attribute, `r`. -/
def addAttributes (scan : LocaleScan) (attrs : List UInt8) : LocaleScan :=
  { scan with
    last := scan.last.map fun l =>
      if 114 ∈ attrs then { l with attributes := l.attributes ||| 1 } else l }

def setVersion (scan : LocaleScan) (unum : List ℕ) : LocaleScan :=
  match scan.version, unum, scan.last with
  | false, [major, minor], some l =>
      if scan.baseMajor = 2 ^ 32 - 1 then
        { scan with baseMajor := major, baseMinor := minor, version := true }
      else if major < scan.baseMajor ∨ (major = scan.baseMajor ∧ minor < scan.baseMinor) then
        { scan with last := some { l with attributes := l.attributes ||| 2 }, version := true }
      else { scan with version := true }
  | _, _, _ => scan

/-- What is done about a line that begins at `pos`. -/
def readLine (scan : LocaleScan) (pos : ℕ) (line : List UInt8) : LocaleScan :=
  match (cstr line).dropWhile isBlank with
  | [] => scan
  | c :: rest =>
      if c = 108 ∨ c = 118 ∨ c = 97 then
        match getLocCmd c rest with
        | none => scan
        | some cmd =>
            match cmd.command with
            | .locale =>
                { scan with
                  locales := scan.finish pos
                  last := some ⟨cmd, pos + line.length, 0, 0⟩
                  version := false }
            | .attributes => scan.addAttributes (cmd.txt.headD [])
            | .version => scan.setVersion cmd.unum
            | _ => scan
      else scan

/-- The loop over what `fgets` reads. -/
def readLines (scan : LocaleScan) (pos : ℕ) : List (List UInt8) → List Locale
  | [] => scan.finish pos
  | line :: lines => (scan.readLine pos line).readLines (pos + line.length) lines

end LocaleScan

/-- A `CR` and an `LF` -/
def hasCrlf : List UInt8 → Bool
  | c :: d :: s => (c = cr && d = lf) || hasCrlf (d :: s)
  | _ => false

/-- `get_supported_locales`, which returns `TRUE` if the list is not empty. -/
def getSupportedLocales (content : List UInt8) : List Locale :=
  let first := content.take 1024
  if first.length < 1024 ∨ 0x80 < first.headD 0 ∨ hasCrlf first = false then []
  else LocaleScan.init.readLines 0 (chunks lf 1023 content)

/-! ## The messages -/

/-- A message table, by `id - MSG_000`. -/
abbrev MsgTable : Type := ℕ → Option (List UInt8)

inductive MsgTableName where
  | default
  | current
deriving DecidableEq

/-- The file, and what has been found in it. -/
structure LocFile where
  /-- what `open_loc_file` opens -/
  content : Option (List UInt8)
  /-- `locale_list` -/
  locales : List Locale
  /-- what is in the line buffer of a locale at an offset, behind the line -/
  behind : ℕ → ℕ → List UInt8

structure LocState where
  /-- `fd != NULL` -/
  opened : Bool
  populateDefault : Bool
  /-- `msg_table` -/
  msgTable : Option MsgTableName
  default : MsgTable
  current : MsgTable

namespace LocState

/-- `msg_table[n] = txt` -/
def setMsg (st : LocState) (n : ℕ) (txt : List UInt8) : LocState :=
  match st.msgTable with
  | some .default => { st with default := Function.update st.default n (some txt) }
  | some .current => { st with current := Function.update st.current n (some txt) }
  | none => st

def addMessageCommand (st : LocState) (ctrlId : ℤ) (txt : List UInt8) : LocState :=
  if ctrlId ≤ 3000 ∨ 3400 ≤ ctrlId then st else st.setMsg (ctrlId - 3000).toNat txt

variable (st : LocState) (ctrlId : ℤ) (n : ℕ) (txt : List UInt8)

theorem addMessageCommand_frame {α : Type} {get : LocState → α}
    (hdefault : ∀ st t, get { st with default := t } = get st)
    (hcurrent : ∀ st t, get { st with current := t } = get st) :
    get (st.addMessageCommand ctrlId txt) = get st := by
  unfold addMessageCommand
  split
  case isTrue => rfl
  case isFalse =>
      unfold setMsg
      split
      · exact hdefault _ _
      · exact hcurrent _ _
      · rfl

@[simp] theorem addMessageCommand_opened :
    (st.addMessageCommand ctrlId txt).opened = st.opened :=
  st.addMessageCommand_frame ctrlId txt (fun _ _ => rfl) fun _ _ => rfl

@[simp] theorem addMessageCommand_populateDefault :
    (st.addMessageCommand ctrlId txt).populateDefault = st.populateDefault :=
  st.addMessageCommand_frame ctrlId txt (fun _ _ => rfl) fun _ _ => rfl

@[simp] theorem addMessageCommand_msgTable :
    (st.addMessageCommand ctrlId txt).msgTable = st.msgTable :=
  st.addMessageCommand_frame ctrlId txt (fun _ _ => rfl) fun _ _ => rfl

end LocState

namespace LocFile

variable (F : LocFile)

/-- `get_locale_from_name`, without a fallback -/
def getLocaleFromName (name : List UInt8) : Option ℕ :=
  F.locales.findIdx? (·.name = name)

/-- `dispatch_loc_cmd`. The commands for dialogs are put into lists of their own,
which are left out here. -/
def dispatchLocCmd (load : ℕ → LocState → Option (Bool × LocState)) (cmd : LocCmd)
    (st : LocState) : Option LocState :=
  let name := cmd.txt.headD []
  if (cmd.command = .group ∨ cmd.command = .text) ∧ name.take 4 = [77, 83, 71, 95] then
    if cmd.command ≠ .text ∨ atoi (name.drop 4) = 0 then some st
    else some (st.addMessageCommand (3000 + atoi (name.drop 4)) (cmd.txt.getD 1 []))
  else if st.msgTable = some .default then some st
  else if cmd.command = .base then
    match F.getLocaleFromName name with
    | some k => (load k st).map Prod.snd
    | none => some st
  else some st

def passLine (load : ℕ → LocState → Option (Bool × LocState)) (st : LocState)
    (line : List UInt8) : Option LocState :=
  match getLocDataLine line with
  | some cmd => F.dispatchLocCmd load cmd st
  | none => some st

/-- The lines of a locale that are passed, and `ret`. -/
def lines (k : ℕ) (l : Locale) : List (List UInt8) × Bool :=
  readSection (F.behind k) (F.content.getD []) l.start l.stop

/-- The loop of `get_loc_data_file`. A load that is begun in it leaves the position
in the file as it was. -/
def readLocale (load : ℕ → LocState → Option (Bool × LocState)) (k : ℕ) (l : Locale)
    (st : LocState) : Option (Bool × LocState) := do
  let st ← (F.lines k l).1.foldlM (F.passLine load) st
  return ((F.lines k l).2, st)

/-- `get_loc_data_file` behind the initialization of the message table. -/
def loadLocale (load : ℕ → LocState → Option (Bool × LocState)) (reentrant named : Bool)
    (k : ℕ) (l : Locale) (st : LocState) : Option (Bool × LocState) :=
  if reentrant then F.readLocale load k l st
  else if named = false then some (false, st)
  else if st.populateDefault = false ∧ k = 0 then
    some (true, { st with msgTable := some .default })
  else
    let st := if st.populateDefault then st else { st with msgTable := some .current }
    if F.content = none then some (false, st)
    else
      (F.readLocale load k l { st with opened := true }).map
        fun r => (r.1, { r.2 with opened := false })

/-- `get_loc_data_file` for a locale of the list; `named` is whether a file name is
given. There is no result where the calls nest deeper than `fuel`. -/
def getLocDataFile : (fuel : ℕ) → (named : Bool) → (k : ℕ) → LocState →
    Option (Bool × LocState)
  | 0, _, _, _ => none
  | fuel + 1, named, k, st =>
      match F.locales[k]? with
      | none => some (false, st)
      | some l =>
          if st.msgTable = none then do
            let (_, st') ← getLocDataFile fuel named 0
              { st with msgTable := some .default, populateDefault := true }
            F.loadLocale (getLocDataFile fuel false) st.opened named k l
              { st' with populateDefault := false }
          else F.loadLocale (getLocDataFile fuel false) st.opened named k l st

end LocFile

/-! ## Bases -/

/-- The variables while a locale is loaded into a table. -/
structure Loading (t : MsgTableName) (populate : Bool) (st : LocState) : Prop where
  opened : st.opened = true
  populateDefault : st.populateDefault = populate
  msgTable : st.msgTable = some t

theorem Loading.addMessageCommand {t : MsgTableName} {populate : Bool} {st : LocState}
    (h : Loading t populate st) (ctrlId : ℤ) (txt : List UInt8) :
    Loading t populate (st.addMessageCommand ctrlId txt) where
  opened := (st.addMessageCommand_opened ctrlId txt).trans h.opened
  populateDefault := (st.addMessageCommand_populateDefault ctrlId txt).trans h.populateDefault
  msgTable := (st.addMessageCommand_msgTable ctrlId txt).trans h.msgTable

/-- The variables while a locale is loaded that is not the default one. -/
abbrev LoadingCurrent : LocState → Prop := Loading .current false

/-- The variables while the default locale is loaded into the default table. -/
abbrev Populating : LocState → Prop := Loading .default true

namespace LocFile

variable {F : LocFile} {k : ℕ} {load : ℕ → LocState → Option (Bool × LocState)}

/-- The line makes a locale the base of the one that it is in. -/
def BaseLine (F : LocFile) (line : List UInt8) (j : ℕ) : Prop :=
  ∃ cmd, getLocDataLine line = some cmd ∧ cmd.command = .base ∧
    F.getLocaleFromName (cmd.txt.headD []) = some j

/-- A locale names another one as its base. -/
def BaseOf (F : LocFile) (k j : ℕ) : Prop :=
  ∃ l, F.locales[k]? = some l ∧ ∃ line ∈ (F.lines k l).1, F.BaseLine line j

/-- A load that goes on within another one -/
def LoadEnds (load : ℕ → LocState → Option (Bool × LocState)) (j : ℕ) : Prop :=
  Returns LoadingCurrent (flip load) (fun r => LoadingCurrent r.2) j

def LoadHangs (load : ℕ → LocState → Option (Bool × LocState)) (j : ℕ) : Prop :=
  Hangs LoadingCurrent (flip load) j

/-- A line is dealt with, if the base that it may name can be loaded. -/
theorem passLine_returns {line : List UInt8} (h : ∀ j, F.BaseLine line j → LoadEnds load j) :
    Returns LoadingCurrent (F.passLine load) LoadingCurrent line := by
  intro st hst
  unfold passLine
  cases hcmd : getLocDataLine line with
  | none => exact ⟨st, rfl, hst⟩
  | some cmd =>
      dsimp only
      unfold dispatchLocCmd
      dsimp only
      split
      case isTrue =>
          split
          case isTrue => exact ⟨st, rfl, hst⟩
          case isFalse => exact ⟨_, rfl, hst.addMessageCommand _ _⟩
      case isFalse =>
          rw [if_neg (by rw [hst.msgTable]; decide)]
          split
          case isTrue hbase =>
              cases hname : F.getLocaleFromName (cmd.txt.headD []) with
              | none => exact ⟨st, rfl, hst⟩
              | some j =>
                  obtain ⟨r, hload, hr⟩ := h j ⟨cmd, hcmd, hbase, hname⟩ st hst
                  exact ⟨r.2, congrArg (Option.map Prod.snd) hload, hr⟩
          case isFalse => exact ⟨st, rfl, hst⟩

theorem passLine_hangs {line : List UInt8} {j : ℕ} (hline : F.BaseLine line j)
    (h : LoadHangs load j) : Hangs LoadingCurrent (F.passLine load) line := by
  obtain ⟨cmd, hcmd, hbase, hname⟩ := hline
  intro st hst
  have hload : load j st = none := h st hst
  have hui : ¬((cmd.command = .group ∨ cmd.command = .text) ∧
      (cmd.txt.headD []).take 4 = [77, 83, 71, 95]) := by
    rw [hbase]
    exact fun h => h.1.elim nofun nofun
  unfold passLine
  rw [hcmd]
  dsimp only
  rw [dispatchLocCmd, if_neg hui, if_neg (by rw [hst.msgTable]; decide), if_pos hbase, hname]
  dsimp only
  rw [hload]
  rfl

theorem baseLine_unique {line : List UInt8} {i j : ℕ} (hi : F.BaseLine line i)
    (hj : F.BaseLine line j) : i = j := by
  obtain ⟨cmd, hcmd, -, hname⟩ := hi
  obtain ⟨cmd', hcmd', -, hname'⟩ := hj
  rw [hcmd] at hcmd'
  cases hcmd'
  exact Option.some.inj (hname.symm.trans hname')

/-- The lines of a locale are dealt with, if its bases can be loaded. -/
theorem readLocale_returns {l : Locale} (hl : F.locales[k]? = some l)
    (h : ∀ j, F.BaseOf k j → LoadEnds load j) {st : LocState} (hst : LoadingCurrent st) :
    ∃ r, F.readLocale load k l st = some r ∧ LoadingCurrent r.2 := by
  have hlines : ∀ line ∈ (F.lines k l).1, Returns LoadingCurrent (F.passLine load) LoadingCurrent line :=
    fun line hline => passLine_returns fun j hj => h j ⟨l, hl, line, hline, hj⟩
  obtain ⟨st', hfold, hst'⟩ := foldlM_ends hlines st hst
  refine ⟨((F.lines k l).2, st'), ?_, hst'⟩
  rw [readLocale, hfold]
  rfl

theorem readLocale_hangs {l : Locale} {j : ℕ} (hl : F.locales[k]? = some l)
    (h : ∀ j, F.BaseOf k j → LoadEnds load j ∨ LoadHangs load j) (hj : F.BaseOf k j)
    (hbad : LoadHangs load j) {st : LocState} (hst : LoadingCurrent st) :
    F.readLocale load k l st = none := by
  have hlines : ∀ line ∈ (F.lines k l).1, Returns LoadingCurrent (F.passLine load) LoadingCurrent line ∨
      Hangs LoadingCurrent (F.passLine load) line := by
    intro line hline
    by_cases hbase : ∃ i, F.BaseLine line i
    · obtain ⟨i, hi⟩ := hbase
      rcases h i ⟨l, hl, line, hline, hi⟩ with hends | hhangs
      · exact .inl (passLine_returns fun j hj => baseLine_unique hi hj ▸ hends)
      · exact .inr (passLine_hangs hi hhangs)
    · exact .inl (passLine_returns fun j hj => absurd ⟨j, hj⟩ hbase)
  obtain ⟨l', hl', line, hline, hname⟩ := hj
  cases hl.symm.trans hl'
  have hfold := foldlM_hangs hlines ⟨line, hline, passLine_hangs hname hbad⟩ st hst
  rw [readLocale, hfold]
  rfl

/-! ## Nested loads -/

section

variable (F)

/-- A load for a base, from within another load -/
def Ends (n k : ℕ) : Prop := LoadEnds (F.getLocDataFile n false) k

def NestedHangs (n k : ℕ) : Prop := LoadHangs (F.getLocDataFile n false) k

end

variable {n : ℕ}

theorem getLocDataFile_of_table {named : Bool} {l : Locale} {st : LocState} {t : MsgTableName}
    (hl : F.locales[k]? = some l) (htable : st.msgTable = some t) :
    F.getLocDataFile (n + 1) named k st
      = F.loadLocale (F.getLocDataFile n false) st.opened named k l st := by
  rw [getLocDataFile, hl]
  dsimp only
  rw [if_neg (by rw [htable]; nofun)]

theorem getLocDataFile_nested {l : Locale} (hl : F.locales[k]? = some l) {st : LocState}
    (hst : LoadingCurrent st) : F.getLocDataFile (n + 1) false k st
      = F.readLocale (F.getLocDataFile n false) k l st := by
  rw [getLocDataFile_of_table hl hst.msgTable, loadLocale, if_pos hst.opened]

theorem ends_of_none (hl : F.locales[k]? = none) : F.Ends (n + 1) k := by
  intro st hst
  refine ⟨(false, st), ?_, hst⟩
  rw [flip, getLocDataFile, hl]

theorem ends_succ (h : ∀ j, F.BaseOf k j → F.Ends n j) : F.Ends (n + 1) k := by
  cases hl : F.locales[k]? with
  | none => exact ends_of_none hl
  | some l =>
      intro st hst
      rw [flip, getLocDataFile_nested hl hst]
      exact readLocale_returns hl h hst

/-- A load at some depth ends or does not, whatever the messages are. -/
theorem ends_or_hangs : ∀ n k, F.Ends n k ∨ F.NestedHangs n k
  | 0, _ => .inr fun _ _ => rfl
  | n + 1, k => by
      by_cases h : ∀ j, F.BaseOf k j → F.Ends n j
      · exact .inl (ends_succ h)
      · push Not at h
        obtain ⟨j, hj, hends⟩ := h
        have hhangs := (ends_or_hangs n j).resolve_left hends
        obtain ⟨l, hl, -⟩ := id hj
        refine .inr fun st hst => ?_
        rw [flip, getLocDataFile_nested hl hst]
        exact readLocale_hangs hl (fun i _ => ends_or_hangs n i) hj hhangs hst

theorem Ends.not_hangs (h : F.Ends n k) : ¬F.NestedHangs n k := by
  intro hhangs
  let st : LocState := ⟨true, false, some .current, fun _ => none, fun _ => none⟩
  have hst : LoadingCurrent st := ⟨rfl, rfl, rfl⟩
  obtain ⟨r, hr, -⟩ := h st hst
  have hnone := hhangs st hst
  rw [hr] at hnone
  cases hnone

theorem Ends.base {j : ℕ} (h : F.Ends (n + 1) k) (hj : F.BaseOf k j) : F.Ends n j := by
  refine (ends_or_hangs n j).resolve_right fun hhangs => h.not_hangs fun st hst => ?_
  obtain ⟨l, hl, -⟩ := id hj
  rw [flip, getLocDataFile_nested hl hst]
  exact readLocale_hangs hl (fun i _ => ends_or_hangs n i) hj hhangs hst

theorem Ends.succ : ∀ {n k : ℕ}, F.Ends n k → F.Ends (n + 1) k
  | 0, _, h => absurd (fun _ _ => rfl) h.not_hangs
  | _ + 1, _, h => ends_succ fun _ hj => (h.base hj).succ

theorem baseOf_lt {j : ℕ} (h : F.BaseOf k j) : j < F.locales.length := by
  obtain ⟨_, _, _, _, _, _, _, hname⟩ := h
  exact (List.findIdx?_eq_some_iff_findIdx_eq.mp hname).1

theorem finite_bases (k : ℕ) : {j | F.BaseOf k j}.Finite :=
  (Set.finite_Iio F.locales.length).subset fun _ => baseOf_lt

theorem finite_reached (k : ℕ) : {j | ReflTransGen F.BaseOf k j}.Finite := by
  have hfinite : ({k} ∪ Set.Iio F.locales.length : Set ℕ).Finite :=
    (Set.finite_singleton k).union (Set.finite_Iio _)
  refine hfinite.subset fun j hj => ?_
  cases hj with
  | refl => exact .inl rfl
  | tail _ hbase => exact .inr (baseOf_lt hbase)

theorem exists_ends_iff (k : ℕ) : (∃ n, F.Ends n k) ↔ ¬LeadsToCycle F.BaseOf k := by
  have hacc : (∃ n, F.Ends n k) ↔ Acc (flip F.BaseOf) k := by
    refine exists_ends_iff_acc ?_ ?_ ?_
    · exact fun j h => h.not_hangs fun _ _ => rfl
    · exact fun n _ _ h hj => h.base hj
    · intro k h
      obtain ⟨n, hn⟩ := exists_common_depth (finite_bases k) (fun _ _ => Ends.succ) h
      exact ⟨n + 1, ends_succ hn⟩
  exact hacc.trans (acc_iff_no_cycle (finite_reached k))

/-! ## The calls from outside -/

structure Idle (st : LocState) : Prop where
  opened : st.opened = false
  populateDefault : st.populateDefault = false

/-- No base is followed while the default locale is loaded. -/
theorem passLine_populating (load : ℕ → LocState → Option (Bool × LocState)) (line : List UInt8) :
    Returns Populating (F.passLine load) Populating line := by
  intro st hst
  unfold passLine
  cases getLocDataLine line with
  | none => exact ⟨st, rfl, hst⟩
  | some cmd =>
      dsimp only
      unfold dispatchLocCmd
      dsimp only
      split
      case isTrue =>
          split
          case isTrue => exact ⟨st, rfl, hst⟩
          case isFalse => exact ⟨_, rfl, hst.addMessageCommand _ _⟩
      case isFalse =>
          rw [if_pos hst.msgTable]
          exact ⟨st, rfl, hst⟩

theorem getLocDataFile_default {st : LocState} (hopened : st.opened = false)
    (hpopulate : st.populateDefault = true) (htable : st.msgTable = some .default) :
    ∃ r, F.getLocDataFile (n + 1) true 0 st = some r ∧ r.2.opened = false ∧
      r.2.msgTable = some .default := by
  cases hl : F.locales[0]? with
  | none =>
      refine ⟨(false, st), ?_, hopened, htable⟩
      rw [getLocDataFile, hl]
  | some l =>
      rw [getLocDataFile_of_table hl htable, loadLocale, hopened, if_neg Bool.false_ne_true,
        if_neg Bool.true_eq_false.mp, if_neg (fun h => by rw [hpopulate] at h; cases h.1),
        if_pos hpopulate]
      split
      case isTrue => exact ⟨_, rfl, hopened, htable⟩
      case isFalse =>
          obtain ⟨st', hfold, hst'⟩ := foldlM_ends
            (fun line _ => passLine_populating (F.getLocDataFile n false) line)
            { st with opened := true } ⟨rfl, hpopulate, htable⟩
          dsimp only
          rw [readLocale, hfold]
          exact ⟨_, rfl, rfl, hst'.msgTable⟩

/-- The first load of all is one that follows a load of the default locale. -/
theorem getLocDataFile_populates {st : LocState} (hst : Idle st) (htable : st.msgTable = none)
    {l : Locale} (hl : F.locales[k]? = some l) :
    ∃ st', Idle st' ∧ st'.msgTable = some .default ∧
      F.getLocDataFile (n + 2) true k st = F.getLocDataFile (n + 2) true k st' := by
  obtain ⟨⟨ret, st'⟩, hload, hopened, htable'⟩ : ∃ r, F.getLocDataFile (n + 1) true 0
      { st with msgTable := some .default, populateDefault := true } = some r ∧
      r.2.opened = false ∧ r.2.msgTable = some .default :=
    getLocDataFile_default hst.opened rfl rfl
  let idle : LocState := { st' with populateDefault := false }
  have hidle : idle.msgTable = some .default := htable'
  refine ⟨idle, ⟨hopened, rfl⟩, hidle, ?_⟩
  rw [getLocDataFile_of_table hl hidle, getLocDataFile, hl]
  dsimp only
  rw [if_pos htable, hload, hst.opened]
  exact congrArg (F.loadLocale (F.getLocDataFile (n + 1) false) · true k l
    { st' with populateDefault := false }) hopened.symm

/-- A call from outside, with the default table filled -/
theorem getLocDataFile_of_idle {st : LocState} {t : MsgTableName} {l : Locale} (hst : Idle st)
    (htable : st.msgTable = some t) (hl : F.locales[k]? = some l) :
    F.getLocDataFile (n + 1) true k st =
      if k = 0 then some (true, { st with msgTable := some .default })
      else if F.content = none then some (false, { st with msgTable := some .current })
      else (F.readLocale (F.getLocDataFile n false) k l
        { st with msgTable := some .current, opened := true }).map
          fun r => (r.1, { r.2 with opened := false }) := by
  rw [getLocDataFile_of_table hl htable]
  obtain ⟨opened, populateDefault, msgTable, default, current⟩ := st
  obtain ⟨rfl, rfl⟩ := hst
  rw [loadLocale, if_neg Bool.false_ne_true, if_neg Bool.true_eq_false.mp]
  split
  case isTrue h => rw [if_pos h.2]
  case isFalse h =>
      rw [if_neg fun hk => h ⟨rfl, hk⟩]
      rfl

/-- A load from outside ends if it would from within another one. -/
theorem isSome_iff_of_table {st : LocState} {t : MsgTableName} {l : Locale} (hst : Idle st)
    (htable : st.msgTable = some t) (hl : F.locales[k]? = some l) :
    (F.getLocDataFile (n + 1) true k st).isSome ↔
      k = 0 ∨ F.content = none ∨ F.Ends (n + 1) k := by
  rw [getLocDataFile_of_idle hst htable hl]
  by_cases hk : k = 0
  · rw [if_pos hk]
    exact iff_of_true rfl (.inl hk)
  rw [if_neg hk, or_iff_right hk]
  by_cases hcontent : F.content = none
  · rw [if_pos hcontent]
    exact iff_of_true rfl (.inl hcontent)
  rw [if_neg hcontent, or_iff_right hcontent, Option.isSome_map]
  have hloading : LoadingCurrent { st with msgTable := some .current, opened := true } :=
    ⟨rfl, hst.populateDefault, rfl⟩
  constructor
  · intro hsome
    refine (ends_or_hangs (n + 1) k).resolve_right fun hhangs => ?_
    have hnone := hhangs _ hloading
    rw [flip, getLocDataFile_nested hl hloading] at hnone
    rw [hnone] at hsome
    cases hsome
  · intro hends
    obtain ⟨r, hr, -⟩ := hends _ hloading
    rw [flip, getLocDataFile_nested hl hloading] at hr
    rw [hr]
    rfl

/-- Where the file cannot be opened, there is nothing to follow. -/
theorem content_ne_none_of_baseOf {j : ℕ} (h : F.BaseOf k j) : F.content ≠ none := by
  intro hcontent
  obtain ⟨l, -, line, hline, cmd, hcmd, -⟩ := h
  have hlines : (F.lines k l).1 = [[]] := by
    rw [lines, hcontent, readSection]
    simp [readLoop, LocReader.init, cstr]
  rw [hlines, List.mem_singleton] at hline
  subst hline
  cases hcmd

/-- Two calls more are enough for the default locale. -/
theorem isSome_add_two_iff {st : LocState} {l : Locale} (hst : Idle st)
    (hl : F.locales[k]? = some l) :
    (F.getLocDataFile (n + 2) true k st).isSome ↔
      k = 0 ∨ F.content = none ∨ F.Ends (n + 2) k := by
  cases htable : st.msgTable with
  | some t => exact isSome_iff_of_table hst htable hl
  | none =>
      obtain ⟨st', hst', htable', hload⟩ := getLocDataFile_populates (n := n) hst htable hl
      rw [hload]
      exact isSome_iff_of_table hst' htable' hl

/-- With one call, nothing is loaded before the default locale. -/
theorem getLocDataFile_one {st : LocState} {l : Locale} (hl : F.locales[k]? = some l)
    (htable : st.msgTable = none) : F.getLocDataFile 1 true k st = none := by
  rw [getLocDataFile, hl]
  dsimp only
  rw [if_pos htable]
  rfl

/-- **Loads end** unless bases lead into a cycle. -/
theorem exists_isSome_iff {st : LocState} (hst : Idle st) (k : ℕ) :
    (∃ fuel, (F.getLocDataFile fuel true k st).isSome) ↔
      k = 0 ∨ ¬LeadsToCycle F.BaseOf k := by
  rw [← exists_ends_iff]
  cases hl : F.locales[k]? with
  | none =>
      refine iff_of_true ⟨1, ?_⟩ (.inr ⟨1, ends_of_none hl⟩)
      rw [getLocDataFile, hl]
      rfl
  | some l =>
      have hcontent : F.content = none → F.Ends 1 k := fun hcontent =>
        ends_succ fun j hj => absurd hcontent (content_ne_none_of_baseOf hj)
      constructor
      · rintro ⟨fuel, hsome⟩
        match fuel with
        | 0 => cases hsome
        | 1 =>
            cases htable : st.msgTable with
            | none =>
                rw [getLocDataFile_one hl htable] at hsome
                cases hsome
            | some t =>
                rcases (isSome_iff_of_table hst htable hl).mp hsome with hk | hnone | hends
                · exact .inl hk
                · exact .inr ⟨1, hcontent hnone⟩
                · exact .inr ⟨1, hends⟩
        | n + 2 =>
            rcases (isSome_add_two_iff hst hl).mp hsome with hk | hnone | hends
            · exact .inl hk
            · exact .inr ⟨1, hcontent hnone⟩
            · exact .inr ⟨n + 2, hends⟩
      · rintro (hk | ⟨n, hends⟩)
        · exact ⟨2, (isSome_add_two_iff hst hl).mpr (.inl hk)⟩
        · exact ⟨n + 2, (isSome_add_two_iff hst hl).mpr (.inr (.inr hends.succ.succ))⟩

/-- **A call ends** if and only if the locale is the default one, or the bases do not
lead from it into a cycle. -/
theorem getLocDataFile_ends_iff (F : LocFile) (k : ℕ) (table : Option MsgTableName)
    (default current : MsgTable) :
    (∃ fuel, (F.getLocDataFile fuel true k
        ⟨false, false, table, default, current⟩).isSome = true) ↔
      k = 0 ∨ ¬LeadsToCycle F.BaseOf k :=
  exists_isSome_iff ⟨rfl, rfl⟩ k

theorem idle_of_table {st : LocState} {t : MsgTableName} {l : Locale} {r : Bool × LocState}
    (hst : Idle st) (htable : st.msgTable = some t) (hl : F.locales[k]? = some l)
    (h : F.getLocDataFile (n + 1) true k st = some r) : Idle r.2 := by
  rw [getLocDataFile_of_idle hst htable hl] at h
  split at h
  case isTrue =>
      cases h
      exact ⟨hst.opened, hst.populateDefault⟩
  case isFalse =>
      split at h
      case isTrue =>
          cases h
          exact ⟨hst.opened, hst.populateDefault⟩
      case isFalse =>
          obtain ⟨r', hread, rfl⟩ := Option.map_eq_some_iff.mp h
          have hloading : LoadingCurrent { st with msgTable := some .current, opened := true } :=
            ⟨rfl, hst.populateDefault, rfl⟩
          have hnested := (getLocDataFile_nested hl hloading).trans hread
          have hends : F.Ends (n + 1) k := (ends_or_hangs (n + 1) k).resolve_right
            fun hhangs => by cases (hhangs _ hloading).symm.trans hnested
          obtain ⟨r'', hr'', hloading'⟩ := hends _ hloading
          obtain rfl : r'' = r' := Option.some.inj (hr''.symm.trans hnested)
          exact ⟨rfl, hloading'.populateDefault⟩

/-- A call that ends leaves the variables as they have to be for the next one. -/
theorem getLocDataFile_idle {st : LocState} {fuel : ℕ} {r : Bool × LocState}
    (hst : Idle st) (h : F.getLocDataFile fuel true k st = some r) : Idle r.2 := by
  match fuel with
  | 0 => cases h
  | n + 1 =>
      cases hl : F.locales[k]? with
      | none =>
          rw [getLocDataFile, hl] at h
          cases h
          exact hst
      | some l =>
          cases htable : st.msgTable with
          | some t => exact idle_of_table hst htable hl h
          | none =>
              cases n with
              | zero =>
                  rw [getLocDataFile_one hl htable] at h
                  cases h
              | succ n =>
                  obtain ⟨st', hst', htable', hload⟩ :=
                    getLocDataFile_populates (n := n) hst htable hl
                  rw [hload] at h
                  exact idle_of_table hst' htable' hl h

/-! ## A locale that is its own base -/

/-- A comment that makes a file as long as it has to be. -/
def filler : List UInt8 := hash :: .replicate 1000 minus ++ [cr, lf]

/-- Of its two locales, the second one names itself. -/
def selfBase : List UInt8 :=
  filler ++ text "l \"a\" \"A\" 1\r\nv 1.0\r\nl \"b\" \"B\" 2\r\nv 1.0\r\nb \"b\"\r\n"

def selfBaseFile : LocFile := ⟨some selfBase, getSupportedLocales selfBase, fun _ _ => []⟩

set_option maxRecDepth 100000 in
theorem baseOf_selfBaseFile : selfBaseFile.BaseOf 1 1 := by
  have hlocale : getSupportedLocales selfBase =
      [⟨⟨.locale, 0, [], [1], [text "a", text "A"]⟩, 1016, 1023, 0⟩,
        ⟨⟨.locale, 0, [], [2], [text "b", text "B"]⟩, 1036, 1050, 0⟩] := by
    decide
  have hlines : (readSection (fun _ => []) selfBase 1036 1050).1
      = [text "v 1.0", text "b \"b\""] := by
    decide
  refine ⟨_, congrArg (·[1]?) hlocale, text "b \"b\"", ?_,
    ⟨.base, 0, [], [], [text "b"]⟩, by decide, rfl, ?_⟩
  · exact hlines ▸ List.mem_cons_of_mem _ List.mem_cons_self
  · rw [getLocaleFromName]
    exact (congrArg _ hlocale).trans (by decide)

/-- A locale that names itself as its base is not loaded, in the first call of
all. -/
theorem getLocDataFile_self_base :
    ¬∃ fuel, (selfBaseFile.getLocDataFile fuel true 1
      ⟨false, false, none, fun _ => none, fun _ => none⟩).isSome = true := by
  rw [exists_isSome_iff ⟨rfl, rfl⟩]
  rintro (h | h)
  · cases h
  · exact h ⟨1, .refl, .single baseOf_selfBaseFile⟩

end LocFile

end Nawam
