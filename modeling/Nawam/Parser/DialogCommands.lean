import Nawam.Base.Heap
import Nawam.Parser.Htab
import Nawam.Parser.LocCommand

/-!
# The commands of the dialogs

The translations of a dialog are in a list, from which `free_dialog_list` frees them, and
`htab_loc` has a pointer to each of them, so that a later translation of the same control
can take the place of an earlier one. `add_dialog_command` keeps the two together, and
`_exit_localization` destroys them together. `free_dialog_list` alone leaves the table as it
is: its pointers then refer to commands that are freed.

What else `_init_localization` and `_exit_localization` do, to the list of the locales and to
the message tables, is left out.
-/

namespace Nawam

/-! ## Source -/

abbrev locHtabSize : ℕ := 1031

/-- `ARRAYSIZE(loc_dlg)` -/
abbrev locDlgCount : ℕ := 10

/-- The number of a command in `enum loc_command_type` -/
def LocCommand.number : LocCommand → ℕ
  | .group => 0
  | .text => 1
  | .version => 2
  | .locale => 3
  | .base => 4
  | .font => 5
  | .attributes => 6

/-- What identifies a command: the dialog, the kind of the command, and `txt[0]` -/
structure DialogKey where
  dialog : ℕ
  command : LocCommand
  control : List UInt8
  deriving DecidableEq

/-- `str`. There is room for 125 characters of the control. -/
def DialogKey.str (k : DialogKey) : List UInt8 :=
  .ofNat (k.dialog + 0x30) :: .ofNat (k.command.number + 0x30) :: k.control.take 125

/-- The commands in memory, and what refers to them -/
structure DialogState where
  initialized : Bool
  /-- the lists of `loc_dlg`; none as long as their heads are NULL -/
  lists : Option (List (List ℕ))
  heap : Heap LocCmd
  htab : HtabTable

def DialogState.start : DialogState :=
  ⟨false, none, ⟨fun _ => none, 0, fun _ _ => rfl⟩, .empty⟩

/-- `list_del(&lcmd->list)` and `free_loc_cmd(lcmd)` -/
def deleteCmd (s : DialogState) (a : ℕ) : C DialogState :=
  match s.lists with
  | none => .error .badBlock
  | some lists =>
      if a ∈ lists.flatten then do
        let heap ← s.heap.free (some a)
        .ok { s with lists := some (lists.map (·.erase a)), heap }
      else .error .badBlock

/-- `htab_loc.table[i]` -/
def htabEntry (htab : HtabTable) (i : ℕ) : C HtabEntry :=
  match htab.table with
  | none => .error .badBlock
  | some table => entry table i

/-- `htab_loc.table[i].data = lcmd` -/
def setHtabData (htab : HtabTable) (i lcmd : ℕ) : C HtabTable := do
  let e ← htabEntry htab i
  .ok { htab with table := htab.table.map (·.set i { e with data := some lcmd }) }

/-- `list_add(&lcmd->list, &loc_dlg[index].list)` -/
def listAdd (s : DialogState) (index lcmd : ℕ) : C DialogState :=
  match s.lists with
  | none => .error .badBlock
  | some lists => .ok { s with lists := some (lists.modify index (lcmd :: ·)) }

/-- `add_dialog_command`, behind the check of the parameters, for a new command -/
def addCommand (s : DialogState) (k : DialogKey) (cmd : LocCmd) (allocated : Bool) :
    C DialogState := do
  let (lcmd, heap) := s.heap.alloc cmd
  let s := { s with heap }
  let (i, htab) ← htabHash true allocated k.str s.htab
  let s := { s with htab }
  let s ← if i ≠ 0 then do
      let e ← htabEntry s.htab i
      let s ← match e.data with
        | none => (.ok s : C DialogState)
        | some htabLcmd => deleteCmd s htabLcmd
      let htab ← setHtabData s.htab i lcmd
      (.ok { s with htab } : C DialogState)
    else .ok s
  listAdd s k.dialog lcmd

/-- The check of the parameters: what identifies the command, where they are valid -/
def dialogKey (index : ℤ) (lcmd : Option LocCmd) : Option (DialogKey × LocCmd) :=
  match lcmd with
  | none => none
  | some cmd =>
      match cmd.txt.head? with
      | none => none
      | some txt =>
          if index < 0 ∨ (locDlgCount : ℤ) ≤ index then none
          else some (⟨index.toNat, cmd.command, txt⟩, cmd)

/-- `add_dialog_command`. `allocated` says whether `malloc` succeeds. -/
def addDialogCommand (s : DialogState) (index : ℤ) (lcmd : Option LocCmd) (allocated : Bool) :
    C DialogState :=
  match dialogKey index lcmd with
  | none => .ok s
  | some (k, cmd) => addCommand s k cmd allocated

def freeDialogList (s : DialogState) : C DialogState :=
  match s.lists with
  | none => .error .badBlock
  | some lists => lists.flatten.foldlM deleteCmd s

/-- `_init_localization`. `allocated` says whether `calloc` succeeds. -/
def initLocalization (s : DialogState) (allocated : Bool) : C DialogState := do
  let lists := List.replicate locDlgCount []
  let (_, htab) ← htabCreate true allocated locHtabSize s.htab
  .ok { s with initialized := true, lists := some lists, htab }

def exitLocalization (s : DialogState) : C DialogState :=
  if s.initialized then do
    let s ← freeDialogList s
    .ok { s with htab := htabDestroy s.htab }
  else .ok s

inductive DialogOp where
  | add (index : ℤ) (lcmd : Option LocCmd) (allocated : Bool)
  | free
  | init (allocated : Bool)
  | exit

def DialogOp.run (op : DialogOp) (s : DialogState) : C DialogState :=
  match op with
  | .add index lcmd allocated => addDialogCommand s index lcmd allocated
  | .free => freeDialogList s
  | .init allocated => initLocalization s allocated
  | .exit => exitLocalization s

def runDialogOps (ops : List DialogOp) (s : DialogState) : C DialogState :=
  ops.foldlM (fun s op => op.run s) s

/-! ## What has to hold -/

/-- What identifies the command that an operation adds -/
def DialogOp.key : DialogOp → Option DialogKey
  | .add index lcmd _ => (dialogKey index lcmd).map Prod.fst
  | _ => none

/-- The commands that operations add, the one with address `a` at `a` -/
def addedKeys (ops : List DialogOp) : List DialogKey := ops.filterMap DialogOp.key

/-- Each list has one command at most for a dialog, a command and a control, and that is the
one added last; and every pointer of the table refers to a command in a list. -/
structure DialogState.Consistent (added : List DialogKey) (s : DialogState) : Prop where
  unique : ∀ lists ∈ s.lists, ∀ (d : ℕ) (l : List ℕ), lists[d]? = some l → l.Nodup ∧
    ∀ a ∈ l, ∀ b ∈ l, added[a]? = added[b]? → a = b
  last : ∀ lists ∈ s.lists, ∀ (d : ℕ) (l : List ℕ), lists[d]? = some l → ∀ a ∈ l, ∃ c control,
    s.heap.blocks a = some c ∧ c.txt.head? = some control ∧
      added[a]? = some ⟨d, c.command, control⟩ ∧
      ∀ b, a < b → added[b]? ≠ some ⟨d, c.command, control⟩
  data : ∀ entries ∈ s.htab.table, ∀ e ∈ entries, ∀ a ∈ e.data,
    (s.heap.blocks a).isSome ∧ ∃ lists ∈ s.lists, ∃ l ∈ lists, a ∈ l

/-- The step keeps the table and the lists together: a command is added while there is a
table, and memory for its string, or it is the first one of its kind in an initialized list;
and the lists are freed alone only where they are empty or there is no table. -/
def DialogOp.Meets (s : DialogState) : DialogOp → Prop
  | .add index lcmd allocated => ∀ k cmd, dialogKey index lcmd = some (k, cmd) →
      (s.htab.table.isSome ∧ allocated = true) ∨
      (s.htab.table = none ∧ ∃ lists ∈ s.lists, ∀ l, lists[k.dialog]? = some l → ∀ a ∈ l,
        ∀ c, s.heap.blocks a = some c →
          ¬(c.command = k.command ∧ c.txt.head? = some k.control))
  | .free => ∃ lists ∈ s.lists, s.htab.table = none ∨ lists.flatten = []
  | .init _ => True
  | .exit => True

def AllMeet : List DialogOp → DialogState → Prop
  | [], _ => True
  | op :: ops, s => op.Meets s ∧ ∀ s', op.run s = .ok s' → AllMeet ops s'

/-! ## The invariant -/

/-- The commands in the lists: each is in memory, and in one list; it is the last one that was
added with its key. -/
structure DialogLists (added : List DialogKey) (heap : Heap LocCmd) (lists : List (List ℕ)) :
    Prop where
  length_eq : lists.length = locDlgCount
  nodup : lists.flatten.Nodup
  cmd : ∀ (d : ℕ) (l : List ℕ), lists[d]? = some l → ∀ a ∈ l, ∃ c txt,
    heap.blocks a = some c ∧ c.txt.head? = some txt ∧
      added[a]? = some ⟨d, c.command, txt⟩ ∧ ∀ b, a < b → added[b]? ≠ some ⟨d, c.command, txt⟩

/-- The entry of the table for the command `a` -/
def RecordedAs (added : List DialogKey) (entries : List HtabEntry) (a i : ℕ) : Prop :=
  dataAt entries i = some a ∧ ∃ k, added[a]? = some k ∧ stringAt entries i = some k.str

/-- The table has the commands of the lists, and no others. -/
structure Recorded (added : List DialogKey) (lists : List (List ℕ)) (entries : List HtabEntry) :
    Prop where
  entry : ∀ a ∈ lists.flatten, ∃ i, RecordedAs added entries a i
  listed : ∀ i a, dataAt entries i = some a → a ∈ lists.flatten ∧ RecordedAs added entries a i

/-- The invariant of the runs -/
structure DialogState.Valid (added : List DialogKey) (s : DialogState) : Prop where
  next_eq : s.heap.next = added.length
  initialized : s.initialized = true → s.lists.isSome
  lists : ∀ lists ∈ s.lists, DialogLists added s.heap lists
  table : s.htab.table = none ∨ ∃ entries keys lists,
    s.htab.Holds entries keys ∧ s.lists = some lists ∧ Recorded added lists entries

theorem DialogState.Valid.consistent {added : List DialogKey} {s : DialogState}
    (h : s.Valid added) : s.Consistent added where
  unique lists hlists d l hl := by
    have hcmd := (h.lists lists hlists).cmd d l hl
    refine ⟨(List.nodup_flatten.mp (h.lists lists hlists).nodup).1 l (List.mem_of_getElem? hl), ?_⟩
    intro a ha b hb hsame
    obtain ⟨c, txt, -, -, hkey, hlast⟩ := hcmd a ha
    obtain ⟨c', txt', -, -, hkey', hlast'⟩ := hcmd b hb
    rw [hkey, hkey'] at hsame
    rcases Nat.lt_trichotomy a b with hlt | heq | hgt
    · exact absurd (hkey'.trans hsame.symm) (hlast b hlt)
    · exact heq
    · exact absurd (hkey.trans hsame) (hlast' a hgt)
  last lists hlists := (h.lists lists hlists).cmd
  data entries hentries e he a ha := by
    rcases h.table with hnone | ⟨entries', keys, lists, hheld, hlists, hrecorded⟩
    · rw [hnone] at hentries
      cases hentries
    · have hentries : entries' = entries := by
        rw [hheld.table_eq] at hentries
        exact Option.some_inj.mp hentries
      subst hentries
      obtain ⟨i, hi⟩ := List.getElem?_of_mem he
      have hdata : dataAt entries' i = some a := by
        rw [dataAt, hi, Option.bind_some]
        exact ha
      obtain ⟨hmem, -⟩ := hrecorded.listed i a hdata
      obtain ⟨l, hl, hal⟩ := List.mem_flatten.mp hmem
      obtain ⟨d, hd⟩ := List.getElem?_of_mem hl
      obtain ⟨c, -, hblock, -⟩ := (h.lists lists hlists).cmd d l hd a hal
      refine ⟨?_, lists, hlists, l, hl, hal⟩
      rw [hblock]
      rfl

/-! ## Deleting commands -/

section

variable {added : List DialogKey} {heap heap' : Heap LocCmd} {lists : List (List ℕ)} {a d : ℕ}

theorem flatten_map_erase (h : lists.flatten.Nodup) (a : ℕ) :
    (lists.map (·.erase a)).flatten = lists.flatten.erase a := by
  have herase : lists.map (·.erase a) = lists.map (List.filter (· != a)) := by
    apply List.map_congr_left
    intro l hl
    exact ((List.nodup_flatten.mp h).1 l hl).erase_eq_filter a
  rw [herase, ← List.filter_flatten, h.erase_eq_filter]

theorem DialogLists.block (h : DialogLists added heap lists) (ha : a ∈ lists.flatten) :
    ∃ c, heap.blocks a = some c := by
  obtain ⟨l, hl, hal⟩ := List.mem_flatten.mp ha
  obtain ⟨d, hd⟩ := List.getElem?_of_mem hl
  obtain ⟨c, -, hblock, -⟩ := h.cmd d l hd a hal
  exact ⟨c, hblock⟩

theorem DialogLists.congr (h : DialogLists added heap lists)
    (hblocks : ∀ b ∈ lists.flatten, heap'.blocks b = heap.blocks b) :
    DialogLists added heap' lists where
  length_eq := h.length_eq
  nodup := h.nodup
  cmd d l hl b hb := by
    obtain ⟨c, txt, hblock, hrest⟩ := h.cmd d l hl b hb
    refine ⟨c, txt, ?_, hrest⟩
    rw [hblocks b (List.mem_flatten.mpr ⟨l, List.mem_of_getElem? hl, hb⟩), hblock]

theorem DialogLists.erase (h : DialogLists added heap lists) (a : ℕ) :
    DialogLists added heap (lists.map (·.erase a)) where
  length_eq := by rw [List.length_map, h.length_eq]
  nodup := by
    rw [flatten_map_erase h.nodup]
    exact h.nodup.erase a
  cmd d l hl b hb := by
    rw [List.getElem?_map] at hl
    obtain ⟨l', hl', rfl⟩ := Option.map_eq_some_iff.mp hl
    exact h.cmd d l' hl' b (List.mem_of_mem_erase hb)

/-- A command of the lists is deleted: it is freed, and in no list any more. -/
theorem deleteCmd_achieves {s : DialogState} (hlists : s.lists = some lists)
    (h : DialogLists added s.heap lists) (ha : a ∈ lists.flatten) :
    Achieves (deleteCmd s a) fun s' =>
      s'.initialized = s.initialized ∧ s'.htab = s.htab ∧ s'.heap.next = s.heap.next ∧
      s'.heap.blocks = Function.update s.heap.blocks a none ∧
      s'.lists = some (lists.map (·.erase a)) ∧
      DialogLists added s'.heap (lists.map (·.erase a)) := by
  obtain ⟨c, hblock⟩ := h.block ha
  have hlive : (s.heap.blocks a).isSome = true := by
    rw [hblock]
    rfl
  rw [deleteCmd, hlists]
  simp only [if_pos ha, Heap.free, dif_pos hlive, C.ok_bind]
  refine .ok ⟨rfl, rfl, rfl, rfl, rfl, (h.erase a).congr ?_⟩
  intro b hb
  rw [flatten_map_erase h.nodup] at hb
  have hne : b ≠ a := (h.nodup.mem_erase_iff.mp hb).1
  exact Function.update_of_ne hne ..

/-- All commands are deleted, and the lists are empty. -/
theorem freeDialogList_achieves {s : DialogState} (hlists : s.lists = some lists)
    (h : DialogLists added s.heap lists) :
    Achieves (freeDialogList s) fun s' =>
      s'.initialized = s.initialized ∧ s'.htab = s.htab ∧ s'.heap.next = s.heap.next ∧
      ∃ lists', s'.lists = some lists' ∧ DialogLists added s'.heap lists' ∧
        lists'.flatten = [] := by
  have hloop : ∀ (ids : List ℕ) (s : DialogState) (lists : List (List ℕ)),
      s.lists = some lists → DialogLists added s.heap lists → lists.flatten = ids →
      Achieves (ids.foldlM deleteCmd s) fun s' =>
        s'.initialized = s.initialized ∧ s'.htab = s.htab ∧ s'.heap.next = s.heap.next ∧
        ∃ lists', s'.lists = some lists' ∧ DialogLists added s'.heap lists' ∧
          lists'.flatten = [] := by
    intro ids
    induction ids with
    | nil =>
        intro s lists hlists h hids
        exact .ok ⟨rfl, rfl, rfl, lists, hlists, h, hids⟩
    | cons a ids ih =>
        intro s lists hlists h hids
        have ha : a ∈ lists.flatten := by
          rw [hids]
          exact List.mem_cons_self
        rw [List.foldlM_cons]
        refine .bind (deleteCmd_achieves hlists h ha) ?_
        rintro s' ⟨hinit, hhtab, hnext, -, hlists', h'⟩
        have hrest : (lists.map (·.erase a)).flatten = ids := by
          rw [flatten_map_erase h.nodup, hids, List.erase_cons_head]
        refine (ih s' _ hlists' h' hrest).mono ?_
        rintro s'' ⟨hinit', hhtab', hnext', hempty⟩
        exact ⟨hinit'.trans hinit, hhtab'.trans hhtab, hnext'.trans hnext, hempty⟩
  rw [freeDialogList, hlists]
  exact hloop lists.flatten s lists hlists h rfl

/-! ## Adding a command -/

theorem getElem?_append_of_some {added : List DialogKey} {k : DialogKey} (h : added[a]? = some k)
    (more : List DialogKey) : (added ++ more)[a]? = some k := by
  obtain ⟨ha, -⟩ := List.getElem?_eq_some_iff.mp h
  rw [List.getElem?_append_left ha, h]

theorem flatten_modify_perm (a : ℕ) : ∀ {lists : List (List ℕ)} {d : ℕ}, d < lists.length →
    (lists.modify d (a :: ·)).flatten.Perm (a :: lists.flatten)
  | [], _, hd => absurd hd (Nat.not_lt_zero _)
  | l :: lists, 0, _ => by
      rw [List.modify_zero_cons, List.flatten_cons, List.flatten_cons, List.cons_append]
  | l :: lists, d + 1, hd => by
      have hrest := (flatten_modify_perm a (Nat.lt_of_succ_lt_succ hd)).append_left l
      rw [List.modify_succ_cons, List.flatten_cons, List.flatten_cons]
      exact hrest.trans List.perm_middle

/-- A new command is added to a list where no command has its key. -/
theorem DialogLists.push (h : DialogLists added heap lists) {c : LocCmd} {k : DialogKey}
    (hblock : heap.blocks added.length = some c) (hcommand : c.command = k.command)
    (htxt : c.txt.head? = some k.control) (hd : k.dialog < locDlgCount)
    (hnot : added.length ∉ lists.flatten) (hfresh : ∀ b ∈ lists.flatten, added[b]? ≠ some k) :
    DialogLists (added ++ [k]) heap (lists.modify k.dialog (added.length :: ·)) where
  length_eq := by rw [List.length_modify, h.length_eq]
  nodup := by
    have hlength : k.dialog < lists.length := by rwa [h.length_eq]
    rw [(flatten_modify_perm _ hlength).nodup_iff]
    exact List.nodup_cons.mpr ⟨hnot, h.nodup⟩
  cmd d l hl b hb := by
    -- a command that was there: no later one has its key
    have hold (l' : List ℕ) (hl' : lists[d]? = some l') (hb' : b ∈ l') : ∃ c txt,
        heap.blocks b = some c ∧ c.txt.head? = some txt ∧
          (added ++ [k])[b]? = some ⟨d, c.command, txt⟩ ∧
          ∀ b', b < b' → (added ++ [k])[b']? ≠ some ⟨d, c.command, txt⟩ := by
      obtain ⟨c', txt, hblock', htxt', hkey, hlast⟩ := h.cmd d l' hl' b hb'
      refine ⟨c', txt, hblock', htxt', getElem?_append_of_some hkey [k], ?_⟩
      intro b' hlt heq
      rcases Nat.lt_or_ge b' added.length with hin | hout
      · rw [List.getElem?_append_left hin] at heq
        exact hlast b' hlt heq
      · rw [List.getElem?_append_right hout] at heq
        have hk := List.mem_singleton.mp (List.mem_of_getElem? heq)
        have hmem : b ∈ lists.flatten := List.mem_flatten.mpr ⟨l', List.mem_of_getElem? hl', hb'⟩
        exact hfresh b hmem (hk ▸ hkey)
    rw [List.getElem?_modify] at hl
    obtain ⟨l', hl', heq⟩ := Option.map_eq_some_iff.mp hl
    by_cases hdialog : k.dialog = d
    · rw [if_pos hdialog] at heq
      subst heq
      rcases List.mem_cons.mp hb with rfl | hb'
      · refine ⟨c, k.control, hblock, htxt, ?_, ?_⟩
        · rw [List.getElem?_append_right (Nat.le_refl _), Nat.sub_self, hcommand, ← hdialog]
          rfl
        · intro b' hlt
          rw [List.getElem?_eq_none]
          · exact Option.some_ne_none _ ∘ Eq.symm
          · rw [List.length_append, List.length_singleton]
            omega
      · exact hold l' hl' hb'
    · rw [if_neg hdialog] at heq
      subst heq
      exact hold l' hl' hb

section

variable {entries entries' : List HtabEntry} {i : ℕ} {k : DialogKey}

theorem RecordedAs.mono (h : RecordedAs added entries a i)
    (hdata : ∀ j, dataAt entries' j = dataAt entries j)
    (hstring : ∀ j s, stringAt entries j = some s → stringAt entries' j = some s) :
    RecordedAs added entries' a i := by
  obtain ⟨ha, k, hk, hs⟩ := h
  exact ⟨(hdata i).trans ha, k, hk, hstring i _ hs⟩

theorem RecordedAs.append (h : RecordedAs added entries a i) (more : List DialogKey) :
    RecordedAs (added ++ more) entries a i := by
  obtain ⟨ha, k, hk, hs⟩ := h
  exact ⟨ha, k, getElem?_append_of_some hk more, hs⟩

/-- The commands of the lists have the entries of the table other than the `i`-th one, and
these entries have no others. -/
structure RecordedBut (added : List DialogKey) (lists : List (List ℕ)) (entries : List HtabEntry)
    (i : ℕ) : Prop where
  entry : ∀ a ∈ lists.flatten, ∃ j, j ≠ i ∧ RecordedAs added entries a j
  listed : ∀ j, j ≠ i → ∀ a, dataAt entries j = some a →
    a ∈ lists.flatten ∧ RecordedAs added entries a j

theorem Recorded.but_of_none (h : Recorded added lists entries) (hi : dataAt entries i = none) :
    RecordedBut added lists entries i where
  entry b hb := by
    obtain ⟨j, hj⟩ := h.entry b hb
    refine ⟨j, ?_, hj⟩
    rintro rfl
    have hdata := hj.1
    rw [hi] at hdata
    cases hdata
  listed j _ b hb := h.listed j b hb

/-- Where its command is taken out of the lists -/
theorem Recorded.but_of_some {t : HtabTable} {keys : List (List UInt8)}
    (h : Recorded added lists entries) (hheld : t.Holds entries keys) (hnodup : lists.flatten.Nodup)
    (hi : dataAt entries i = some a) :
    RecordedBut added (lists.map (·.erase a)) entries i where
  entry b hb := by
    rw [flatten_map_erase hnodup] at hb
    obtain ⟨hne, hmem⟩ := hnodup.mem_erase_iff.mp hb
    obtain ⟨j, hj⟩ := h.entry b hmem
    refine ⟨j, ?_, hj⟩
    rintro rfl
    exact hne (Option.some_inj.mp (hj.1.symm.trans hi))
  listed j hj b hb := by
    obtain ⟨hmem, hentry⟩ := h.listed j b hb
    refine ⟨?_, hentry⟩
    rw [flatten_map_erase hnodup, hnodup.mem_erase_iff]
    refine ⟨?_, hmem⟩
    rintro rfl
    -- one command does not have two entries, for it has one string
    obtain ⟨-, k, hk, hs⟩ := hentry
    obtain ⟨-, k', hk', hs'⟩ := (h.listed i b hi).2
    obtain rfl := Option.some_inj.mp (hk.symm.trans hk')
    exact hj (hheld.keeps.placed.unique hs hs')

theorem RecordedBut.push (h : RecordedBut added lists entries i) {e : HtabEntry}
    (he : entries[i]? = some e) (hstring : stringAt entries i = some k.str)
    (hd : k.dialog < lists.length) :
    Recorded (added ++ [k]) (lists.modify k.dialog (added.length :: ·))
      (entries.set i { e with data := some added.length }) := by
  obtain ⟨hi, -⟩ := List.getElem?_eq_some_iff.mp he
  have hself : dataAt (entries.set i { e with data := some added.length }) i
      = some added.length := by
    rw [dataAt, List.getElem?_set_self hi, Option.bind_some]
  have hother {j : ℕ} (hj : j ≠ i) :
      dataAt (entries.set i { e with data := some added.length }) j = dataAt entries j := by
    rw [dataAt, dataAt, List.getElem?_set_ne (Ne.symm hj)]
  have hnew : RecordedAs (added ++ [k]) (entries.set i { e with data := some added.length })
      added.length i := by
    refine ⟨hself, k, ?_, ?_⟩
    · rw [List.getElem?_append_right (Nat.le_refl _), Nat.sub_self]
      rfl
    · rw [stringAt_setData he, hstring]
  have hold {b j : ℕ} (hj : j ≠ i) (hb : RecordedAs added entries b j) :
      RecordedAs (added ++ [k]) (entries.set i { e with data := some added.length }) b j := by
    obtain ⟨hdata, k', hk', hs⟩ := hb.append [k]
    exact ⟨(hother hj).trans hdata, k', hk', by rw [stringAt_setData he, hs]⟩
  have hmem (b : ℕ) : b ∈ (lists.modify k.dialog (added.length :: ·)).flatten ↔
      b = added.length ∨ b ∈ lists.flatten := by
    rw [(flatten_modify_perm _ hd).mem_iff, List.mem_cons]
  constructor
  · intro b hb
    rcases (hmem b).mp hb with rfl | hb
    · exact ⟨i, hnew⟩
    · obtain ⟨j, hj, hentry⟩ := h.entry b hb
      exact ⟨j, hold hj hentry⟩
  · intro j b hb
    by_cases hj : j = i
    · subst hj
      obtain rfl := Option.some_inj.mp (hself.symm.trans hb)
      exact ⟨(hmem _).mpr (Or.inl rfl), hnew⟩
    · rw [hother hj] at hb
      obtain ⟨hlisted, hentry⟩ := h.listed j hj b hb
      exact ⟨(hmem b).mpr (Or.inr hlisted), hold hj hentry⟩

end

/-- What an allocation leaves: the new command, and the lists as they were -/
theorem DialogState.Valid.alloc {s : DialogState} (h : s.Valid added)
    (hlists : s.lists = some lists) (cmd : LocCmd) :
    (s.heap.alloc cmd).1 = added.length ∧ (s.heap.alloc cmd).2.next = added.length + 1 ∧
      (s.heap.alloc cmd).2.blocks added.length = some cmd ∧ added.length ∉ lists.flatten ∧
      DialogLists added (s.heap.alloc cmd).2 lists := by
  have hheld := h.lists lists hlists
  have hnot : added.length ∉ lists.flatten := by
    intro hmem
    obtain ⟨c, hblock⟩ := hheld.block hmem
    rw [s.heap.fresh _ h.next_eq.le] at hblock
    cases hblock
  have hblocks : (s.heap.alloc cmd).2.blocks =
      Function.update s.heap.blocks added.length (some cmd) := by
    rw [← h.next_eq]
    rfl
  refine ⟨h.next_eq, congrArg (· + 1) h.next_eq, ?_, hnot, hheld.congr ?_⟩
  · rw [hblocks, Function.update_self]
  · intro b hb
    rw [hblocks, Function.update_of_ne]
    rintro rfl
    exact hnot hb

/-- Without a table the command only goes to its list. -/
theorem addCommand_of_none {s : DialogState} (h : s.Valid added) (hnone : s.htab.table = none)
    (hlists : s.lists = some lists) {k : DialogKey} {cmd : LocCmd}
    (hcommand : cmd.command = k.command) (htxt : cmd.txt.head? = some k.control)
    (hd : k.dialog < locDlgCount) (hfresh : ∀ b ∈ lists.flatten, added[b]? ≠ some k)
    (allocated : Bool) :
    Achieves (addCommand s k cmd allocated) fun s' => s'.Valid (added ++ [k]) := by
  obtain ⟨haddr, hnext, hblock, hnot, hheld⟩ := h.alloc hlists cmd
  have hcall : htabHash true allocated k.str s.htab = .ok (0, s.htab) := by
    rw [htabHash, hnone]
  rw [addCommand]
  simp only [hcall, C.ok_bind, if_neg (not_not.mpr rfl), listAdd, hlists, haddr]
  refine .ok ⟨?_, ?_, ?_, Or.inl hnone⟩
  · rw [hnext, List.length_append, List.length_singleton]
  · intro _
    rfl
  · rintro _ ⟨⟩
    exact hheld.push hblock hcommand htxt hd hnot hfresh

/-- The end of the function: the entry gets the command, and so does the list. -/
theorem link_achieves {s : DialogState} {entries : List HtabEntry} {keys : List (List UInt8)}
    {i : ℕ} {e : HtabEntry} {k : DialogKey} {cmd : LocCmd} (hlists : s.lists = some lists)
    (hnext : s.heap.next = added.length + 1) (hdialogs : DialogLists added s.heap lists)
    (hheld : s.htab.Holds entries keys) (hbut : RecordedBut added lists entries i)
    (hget : entries[i]? = some e) (hstring : stringAt entries i = some k.str)
    (hblock : s.heap.blocks added.length = some cmd) (hcommand : cmd.command = k.command)
    (htxt : cmd.txt.head? = some k.control) (hd : k.dialog < locDlgCount)
    (hnot : added.length ∉ lists.flatten) :
    Achieves (do
      let htab ← setHtabData s.htab i added.length
      listAdd { s with htab } k.dialog added.length) fun s' => s'.Valid (added ++ [k]) := by
  have hload : entry entries i = .ok e := by rw [entry, hget]
  have hentry : htabEntry s.htab i = .ok e := by
    rw [htabEntry, hheld.table_eq]
    exact hload
  have hlength : k.dialog < lists.length := by rwa [hdialogs.length_eq]
  -- a command with the same key would have the same string, and so the same entry
  have hfresh : ∀ b ∈ lists.flatten, added[b]? ≠ some k := by
    intro b hb hk
    obtain ⟨j, hj, -, k', hk', hs⟩ := hbut.entry b hb
    obtain rfl := Option.some_inj.mp (hk'.symm.trans hk)
    exact hj (hheld.keeps.placed.unique hs hstring)
  rw [setHtabData, hentry]
  simp only [C.ok_bind, listAdd, hlists, hheld.table_eq, Option.map_some]
  refine .ok ⟨?_, fun _ => rfl, ?_, Or.inr ⟨_, keys, _, hheld.setData hget _, rfl, ?_⟩⟩
  · rw [hnext, List.length_append, List.length_singleton]
  · rintro _ ⟨⟩
    exact hdialogs.push hblock hcommand htxt hd hnot hfresh
  · exact hbut.push hget hstring hlength

/-- With a table the command takes the place of the one with the same string. -/
theorem addCommand_of_table {s : DialogState} (h : s.Valid added) (htable : s.htab.table.isSome)
    {k : DialogKey} {cmd : LocCmd} (hcommand : cmd.command = k.command)
    (htxt : cmd.txt.head? = some k.control) (hd : k.dialog < locDlgCount) :
    Contained (addCommand s k cmd true) fun s' => s'.Valid (added ++ [k]) := by
  obtain hnone | ⟨entries, keys, lists, hheld, hlists, hrecorded⟩ := h.table
  · rw [hnone] at htable
    cases htable
  obtain ⟨haddr, hnext, hblock, hnot, hdialogs⟩ := h.alloc hlists cmd
  rw [addCommand]
  by_cases hroom : k.str ∈ keys ∨ keys.length < s.htab.size
  swap
  · -- the table is full, and the assertion ends the program
    obtain ⟨hnew, hlength⟩ := not_or.mp hroom
    have hle := hheld.keeps.length_le
    rw [Nat.card_Icc] at hle
    have hcall := hheld.htabHash_of_full true true hnew (by omega)
    rw [if_pos rfl] at hcall
    simp only [hcall, C.error_bind]
    exact .assertion
  obtain ⟨idx, htab, entries', hcall, hsize, hheld', hkept, hdata, hidx⟩ :=
    hheld.step (show true = false ∨ k.str ∈ keys ∨ keys.length < s.htab.size from Or.inr hroom)
  have hstring : stringAt entries' idx = some k.str := by
    refine hidx.resolve_right fun hfull => ?_
    rcases hroom with hmem | hlt
    · exact hfull.2.1 hmem
    · exact absurd hfull.2.2 (Nat.not_le_of_lt hlt)
  have hmem := hheld'.index_mem hstring
  obtain ⟨e, hget, hentry, -⟩ := hheld'.exists_entry hmem
  have he : e.data = dataAt entries idx := by
    rw [← hdata idx, dataAt, hget, Option.bind_some]
  have hne : idx ≠ 0 := by
    have := Finset.mem_Icc.mp hmem
    omega
  have hloaded : htabEntry htab idx = .ok e := by
    rw [htabEntry, hheld'.table_eq]
    exact hentry
  have hrecorded' : Recorded added lists entries' := by
    constructor
    · intro a ha
      obtain ⟨j, hj⟩ := hrecorded.entry a ha
      exact ⟨j, hj.mono hdata hkept⟩
    · intro j a ha
      rw [hdata j] at ha
      obtain ⟨hlisted, hj⟩ := hrecorded.listed j a ha
      exact ⟨hlisted, hj.mono hdata hkept⟩
  simp only [hcall, C.ok_bind, if_pos hne, hloaded, haddr]
  refine Or.inr ?_
  cases hcmd : e.data with
  | none =>
      have hbut := hrecorded'.but_of_none (i := idx) (by rw [hdata, ← he, hcmd])
      exact link_achieves (s := { s with heap := (s.heap.alloc cmd).2, htab }) hlists hnext
        hdialogs hheld' hbut hget hstring hblock hcommand htxt hd hnot
  | some a =>
      have ha : dataAt entries' idx = some a := by rw [hdata, ← he, hcmd]
      have hlisted := (hrecorded'.listed idx a ha).1
      refine .bind (deleteCmd_achieves
        (s := { s with heap := (s.heap.alloc cmd).2, htab }) hlists hdialogs hlisted) ?_
      rintro s₁ ⟨-, hhtab, hnext₁, hblocks, hlists₁, hdialogs₁⟩
      have hbut := hrecorded'.but_of_some hheld' hdialogs.nodup ha
      have hhtab : s₁.htab = htab := hhtab
      rw [← hhtab] at hheld'
      refine link_achieves hlists₁ (hnext₁.trans hnext) hdialogs₁ hheld' hbut hget hstring ?_
        hcommand htxt hd ?_
      · rw [hblocks, Function.update_of_ne]
        · exact hblock
        · rintro rfl
          exact hnot hlisted
      · rw [flatten_map_erase hdialogs.nodup]
        exact fun hmem => hnot (List.mem_of_mem_erase hmem)

end

/-! ## Every run -/

theorem dialogKey_eq_some {index : ℤ} {lcmd : Option LocCmd} {k : DialogKey} {cmd : LocCmd}
    (h : dialogKey index lcmd = some (k, cmd)) :
    cmd.command = k.command ∧ cmd.txt.head? = some k.control ∧ k.dialog < locDlgCount := by
  cases lcmd with
  | none => cases h
  | some c =>
      cases htxt : c.txt.head? with
      | none =>
          simp only [dialogKey, htxt] at h
          cases h
      | some txt =>
          simp only [dialogKey, htxt] at h
          split at h
          case isTrue => cases h
          case isFalse hindex =>
              cases h
              refine ⟨rfl, htxt, ?_⟩
              have hlt : index.toNat < locDlgCount := by
                rw [locDlgCount] at hindex ⊢
                omega
              exact hlt

theorem DialogState.Valid.start : DialogState.start.Valid [] where
  next_eq := rfl
  initialized := fun h => nomatch h
  lists := fun _ h => nomatch h
  table := Or.inl rfl

/-- What `free_dialog_list` leaves behind a valid state `s` -/
structure DialogState.Freed (added : List DialogKey) (s s' : DialogState) : Prop where
  next_eq : s'.heap.next = added.length
  htab_eq : s'.htab = s.htab
  lists : ∃ lists, s'.lists = some lists ∧ DialogLists added s'.heap lists ∧ lists.flatten = []

/-- It leaves a valid state where the table had no commands. -/
theorem DialogState.Freed.valid {added : List DialogKey} {s s' : DialogState}
    (h : s.Freed added s') {htab : HtabTable} (htable : htab.table = none ∨
      ∃ entries keys, htab.Holds entries keys ∧ ∀ i a, dataAt entries i ≠ some a) :
    DialogState.Valid added { s' with htab } := by
  obtain ⟨lists, hlists, hheld, hempty⟩ := h.lists
  refine ⟨h.next_eq, fun _ => Option.isSome_of_eq_some hlists, ?_, htable.imp_right ?_⟩
  · intro l hl
    obtain rfl := Option.some_inj.mp (hlists.symm.trans hl)
    exact hheld
  · rintro ⟨entries, keys, hkeys, hdata⟩
    refine ⟨entries, keys, lists, hkeys, hlists, ?_, fun i a ha => absurd ha (hdata i a)⟩
    intro a ha
    rw [hempty] at ha
    cases ha

theorem DialogState.Valid.free {added : List DialogKey} {s : DialogState} (h : s.Valid added)
    {lists : List (List ℕ)} (hlists : s.lists = some lists) :
    Achieves (freeDialogList s) (s.Freed added) :=
  (freeDialogList_achieves hlists (h.lists lists hlists)).mono
    fun _ ⟨_, hhtab, hnext, hempty⟩ => ⟨hnext.trans h.next_eq, hhtab, hempty⟩

/-- The commands that were in the lists are lost, where there are some. -/
theorem DialogState.Valid.init {added : List DialogKey} {s : DialogState} (h : s.Valid added)
    (allocated : Bool) :
    Contained (initLocalization s allocated) fun s' => s'.Valid added := by
  rw [initLocalization]
  cases htable : s.htab.table with
  | some entries =>
      have hassert : htabCreate true allocated locHtabSize s.htab = .error .assertion := by
        rw [htabCreate, htable]
        rfl
      simp only [hassert, C.error_bind]
      exact .assertion
  | none =>
      obtain ⟨size, hprime, -, hfive, hmax, hcreate⟩ :=
        htabCreate_eq (show 2 ≤ locHtabSize by decide) (by decide) true allocated htable
      have hlists : DialogLists added s.heap (List.replicate locDlgCount []) := by
        refine ⟨List.length_replicate, ?_, ?_⟩
        · rw [List.flatten_replicate_nil]
          exact List.nodup_nil
        · intro d l hl a ha
          rw [List.eq_of_mem_replicate (List.mem_of_getElem? hl)] at ha
          cases ha
      have hempty : s.Freed added ⟨true, some (List.replicate locDlgCount []), s.heap, s.htab⟩ :=
        ⟨h.next_eq, rfl, _, rfl, hlists, List.flatten_replicate_nil⟩
      simp only [hcreate, C.ok_bind]
      cases allocated with
      | false => exact .ok (hempty.valid (Or.inl rfl))
      | true =>
          have hfresh := HtabTable.Holds.fresh hprime hfive hmax
          have hdata (i a : ℕ) : dataAt (List.replicate (size + 1) .free) i ≠ some a := by
            rw [dataAt, List.getElem?_replicate]
            split
            case isTrue => rintro ⟨⟩
            case isFalse => rintro ⟨⟩
          exact .ok (hempty.valid (Or.inr ⟨_, [], hfresh, hdata⟩))

/-- What a step that meets the condition leaves -/
theorem DialogState.Valid.step {added : List DialogKey} {s : DialogState} (h : s.Valid added)
    {op : DialogOp} (hop : op.Meets s) :
    Contained (op.run s) fun s' => s'.Valid (added ++ op.key.toList) := by
  cases op with
  | add index lcmd allocated =>
      rw [DialogOp.run, addDialogCommand, DialogOp.key]
      cases hkey : dialogKey index lcmd with
      | none =>
          rw [Option.map_none, Option.toList_none, List.append_nil]
          exact .ok h
      | some r =>
          obtain ⟨k, cmd⟩ := r
          obtain ⟨hcommand, htxt, hd⟩ := dialogKey_eq_some hkey
          rcases hop k cmd hkey with ⟨htable, rfl⟩ | ⟨hnone, lists, hlists, hfirst⟩
          · exact addCommand_of_table h htable hcommand htxt hd
          · refine Or.inr (addCommand_of_none h hnone hlists hcommand htxt hd ?_ allocated)
            intro b hb hk
            obtain ⟨l, hl, hbl⟩ := List.mem_flatten.mp hb
            obtain ⟨d, hd'⟩ := List.getElem?_of_mem hl
            obtain ⟨c, txt, hblock, htxt', hkey', -⟩ := (h.lists lists hlists).cmd d l hd' b hbl
            obtain rfl := Option.some_inj.mp (hkey'.symm.trans hk)
            exact hfirst l hd' b hbl c hblock ⟨rfl, htxt'⟩
  | free =>
      obtain ⟨lists, hlists, hempty⟩ := hop
      obtain ⟨s', hrun, hfreed⟩ := h.free hlists
      have hkey : DialogOp.free.key = none := rfl
      rw [DialogOp.run, hkey, Option.toList_none, List.append_nil]
      have htable : s'.htab.table = none ∨ ∃ entries keys, s'.htab.Holds entries keys ∧
          ∀ i a, dataAt entries i ≠ some a := by
        rw [hfreed.htab_eq]
        rcases hempty with hnone | hempty
        · exact Or.inl hnone
        · refine h.table.imp_right ?_
          rintro ⟨entries, keys, l, hheld, hl, hrecorded⟩
          obtain rfl := Option.some_inj.mp (hl.symm.trans hlists)
          refine ⟨entries, keys, hheld, fun i a ha => ?_⟩
          obtain ⟨hmem, -⟩ := hrecorded.listed i a ha
          rw [hempty] at hmem
          cases hmem
      exact Or.inr ⟨s', hrun, hfreed.valid htable⟩
  | init allocated =>
      have hkey : (DialogOp.init allocated).key = none := rfl
      rw [DialogOp.run, hkey, Option.toList_none, List.append_nil]
      exact h.init allocated
  | exit =>
      have hkey : DialogOp.exit.key = none := rfl
      rw [DialogOp.run, hkey, Option.toList_none, List.append_nil, exitLocalization]
      cases hinit : s.initialized with
      | false =>
          rw [if_neg Bool.false_ne_true]
          exact .ok h
      | true =>
          obtain ⟨lists, hlists⟩ := Option.isSome_iff_exists.mp (h.initialized hinit)
          obtain ⟨s', hrun, hfreed⟩ := h.free hlists
          rw [if_pos rfl, hrun, C.ok_bind]
          have hnone : (htabDestroy s'.htab).table = none := by
            unfold htabDestroy
            cases htable : s'.htab.table with
            | none => exact htable
            | some _ => rfl
          exact .ok (hfreed.valid (Or.inl hnone))

/-- Every part of a run leaves a consistent state, where the steps of the run all meet the
condition. An assertion may end the program before. -/
theorem DialogState.Valid.run (ops : List DialogOp) {added : List DialogKey} {s : DialogState}
    (h : s.Valid added) (hops : AllMeet ops s) :
    Contained (runDialogOps ops s) fun s' => s'.Valid (added ++ addedKeys ops) := by
  induction ops generalizing added s with
  | nil =>
      rw [addedKeys, List.filterMap_nil, List.append_nil]
      exact .ok h
  | cons op ops ih =>
      obtain ⟨hop, hrest⟩ := hops
      have hkeys : addedKeys (op :: ops) = op.key.toList ++ addedKeys ops := by
        rw [addedKeys, List.filterMap_cons]
        cases op.key with
        | none => rfl
        | some _ => rfl
      rw [runDialogOps, List.foldlM_cons, hkeys, ← List.append_assoc]
      rcases h.step hop with hassert | ⟨s', hstep, hs'⟩
      · rw [hassert, C.error_bind]
        exact .assertion
      · rw [hstep, C.ok_bind]
        exact ih hs' (hrest s' hstep)

theorem AllMeet.take {ops : List DialogOp} {s : DialogState} (h : AllMeet ops s) (n : ℕ) :
    AllMeet (ops.take n) s := by
  induction n generalizing ops s with
  | zero => trivial
  | succ n ih =>
      cases ops with
      | nil => trivial
      | cons op ops => exact ⟨h.1, fun s' hs' => ih (h.2 s' hs')⟩

/-- In every run from the start of the program whose steps meet the condition, every state
that is reached is consistent with the commands that were added up to there. -/
theorem runDialogOps_consistent (ops : List DialogOp) (h : AllMeet ops .start) (n : ℕ) :
    Contained (runDialogOps (ops.take n) .start) fun s =>
      s.Consistent (addedKeys (ops.take n)) :=
  (DialogState.Valid.start.run _ (h.take n)).mono fun _ hs => hs.consistent

/-! ## A run that meets the condition, and one that does not -/

/-- `t IDC_DEVICE "..."` -/
def deviceText : LocCmd := ⟨.text, 1001, [], [], [Ascii.text "IDC_DEVICE", Ascii.text "Device"]⟩

/-- A command is added, and another one for the same control; then the program ends. -/
def replacedDevice : List DialogOp :=
  [.init true, .add 0 (some deviceText) true, .add 0 (some deviceText) true, .exit]

theorem replacedDevice_allMeet : AllMeet replacedDevice .start := by
  refine ⟨trivial, fun s hs => ⟨fun k cmd _ => Or.inl ⟨?_, rfl⟩, fun s' hs' =>
    ⟨fun k cmd _ => Or.inl ⟨?_, rfl⟩, fun _ _ => ⟨trivial, fun _ _ => trivial⟩⟩⟩⟩
  · have htable : (runDialogOps (replacedDevice.take 1) .start).map (·.htab.table.isSome) =
        .ok true := by
      decide +kernel
    rw [replacedDevice, List.take_succ_cons, List.take_zero, runDialogOps, List.foldlM_cons, hs]
      at htable
    exact Except.ok.inj htable
  · have htable : (runDialogOps (replacedDevice.take 2) .start).map (·.htab.table.isSome) =
        .ok true := by
      decide +kernel
    rw [replacedDevice, List.take_succ_cons, List.take_succ_cons, List.take_zero, runDialogOps,
      List.foldlM_cons, hs, C.ok_bind, List.foldlM_cons, hs'] at htable
    exact Except.ok.inj htable

/-- Behind the second command the entry has that one. -/
theorem runDialogOps_consistent_replaced : Contained (runDialogOps (replacedDevice.take 3) .start)
    fun s => s.Consistent (addedKeys (replacedDevice.take 3)) :=
  runDialogOps_consistent replacedDevice replacedDevice_allMeet 3

/-- A pointer of the table refers to a command that is freed. -/
def DialogState.dangles (s : DialogState) : Bool :=
  match s.htab.table with
  | none => false
  | some entries => entries.any fun e => e.data.any fun a => (s.heap.blocks a).isNone

theorem DialogState.Consistent.not_dangles {added : List DialogKey} {s : DialogState}
    (h : s.Consistent added) : s.dangles = false := by
  unfold DialogState.dangles
  cases htable : s.htab.table with
  | none => rfl
  | some entries =>
      refine List.any_eq_false.mpr fun e he => ?_
      cases hdata : e.data with
      | none => exact Bool.false_ne_true
      | some a =>
          obtain ⟨hsome, -⟩ := h.data entries htable e he a hdata
          rw [Option.any_some, ← Option.not_isSome, hsome]
          exact Bool.false_ne_true

/-- The lists are freed alone, as they are for the next locale, and the table still has the
command that was in a list; the next command for the control is taken from there. -/
theorem freed_command_dangles :
    (∃ s, runDialogOps [.init true, .add 0 (some deviceText) true, .free] .start = .ok s ∧
      ¬ s.Consistent (addedKeys [.init true, .add 0 (some deviceText) true, .free])) ∧
    runDialogOps [.init true, .add 0 (some deviceText) true, .free,
      .add 0 (some deviceText) true] .start = .error .badBlock := by
  constructor
  · have hrun : (runDialogOps [.init true, .add 0 (some deviceText) true, .free] .start).map
        DialogState.dangles = .ok true := by
      decide +kernel
    cases hs : runDialogOps [.init true, .add 0 (some deviceText) true, .free] .start with
    | error f =>
        rw [hs] at hrun
        cases hrun
    | ok s =>
        rw [hs] at hrun
        refine ⟨s, rfl, fun h => ?_⟩
        exact Bool.false_ne_true (h.not_dangles.symm.trans (Except.ok.inj hrun))
  · have hrun : (runDialogOps [.init true, .add 0 (some deviceText) true, .free,
        .add 0 (some deviceText) true] .start).map (fun _ => ()) = .error .badBlock := by
      decide +kernel
    cases hs : runDialogOps [.init true, .add 0 (some deviceText) true, .free,
        .add 0 (some deviceText) true] .start with
    | error f =>
        rw [hs] at hrun
        exact congrArg _ (Except.error.inj hrun)
    | ok s =>
        rw [hs] at hrun
        cases hrun

end Nawam
