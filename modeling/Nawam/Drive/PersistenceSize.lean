import Nawam.Base.Align
import Nawam.Base.System

/-!
# The size of the persistent partition

The controls of the main dialog for `persistence_size`, of `rufus.c` and
`ui.c`: the text field, the units and the slider, and `SetPersistenceSize`
that sets them up for a drive. They are a system whose steps are the messages
that arrive. The text is kept as the number that `strtol` reads from it.

No handler compares the value with both bounds. What it is after a message is
within the bounds exactly where the message is admitted (`Admits`): it leaves
nothing, or it asks for enough and there is room for as much. The upper bound
is kept by all of them together (`Controls.Ok`), unless 110 % of the image is
more than the disk and the difference wraps.
-/

namespace Nawam

/-! ## Source -/

abbrev minExtSize : ℕ := 256 * 1048576

/-- The drive and the image, and what the dialog is set to. -/
structure PersistenceEnv where
  /-- `SelectedDrive.DiskSize` -/
  diskSize : ℕ
  /-- `img_report.projected_size` -/
  projectedSize : ℕ
  /-- a drive is selected in the list -/
  selected : Bool
  /-- `boot_type == BT_IMAGE` -/
  bootImage : Bool
  diskSize_lt : diskSize < 2 ^ 63

/-- `app_changed_size`, `persistence_size`, `persistence_unit_selection` and the
controls. A unit of -1 is none. -/
structure Controls where
  appChanged : Bool
  size : ℕ
  unit : ℤ
  /-- the number that the text field begins with -/
  text : ℤ
  /-- the item of the units that is selected, and how many there are -/
  unitSel : ℤ
  unitCount : ℕ
  /-- the upper end of the range of the slider -/
  sliderMax : ℕ
deriving DecidableEq, Repr

/-- The messages. A change of the text comes from the user, who has typed what
reads as a number, or from the program itself. -/
inductive UiEvent where
  | change (typed : Option ℤ)
  | killFocus
  | units (sel : ℕ)
  | slide (pos : ℕ)
  | setPersistenceSize
deriving DecidableEq, Repr

/-- `PERCENTAGE(PROJECTED_SIZE_RATIO, img_report.projected_size)` -/
def PersistenceEnv.reserved (env : PersistenceEnv) : ℕ :=
  110 * env.projectedSize % 2 ^ 64 / 100

/-- `SelectedDrive.DiskSize` without it -/
def PersistenceEnv.maxSize (env : PersistenceEnv) : ℕ :=
  wrapSub 64 env.diskSize env.reserved

/-- `lPos * MB`, and times 1024 for each unit -/
def fromUnits (unit pos : ℤ) : ℕ :=
  (pos * 1048576 % 2 ^ 64).toNat * 1024 ^ unit.toNat % 2 ^ 64

/-- `pos / MB`, and by 1024 for each unit -/
def toUnits (unit : ℤ) (size : ℕ) : ℕ := size / 1048576 / 1024 ^ unit.toNat

/-- The loop over the units: how many are offered, and the one that is
proposed. -/
def offerUnits (diskSize : ℕ) : ℕ → ℕ → ℕ → ℕ → ℕ × ℕ
  | 0, i, _, proposed => (i, proposed)
  | n + 1, i, baseUnit, proposed =>
      let proposed := if 7 * baseUnit < diskSize then i else proposed
      if diskSize < 2 * (baseUnit * 1024) then (i + 1, proposed)
      else offerUnits diskSize n (i + 1) (baseUnit * 1024) proposed

namespace Controls

def setPersistencePos (env : PersistenceEnv) (s : Controls) (pos : ℕ) : Controls :=
  { s with
    text := if env.bootImage ∧ pos ≠ 0 then toLong pos else 0
    appChanged := true }

def setPersistenceSize (env : PersistenceEnv) (s : Controls) : Controls :=
  if env.selected then
    let size := min s.size env.maxSize
    let (count, proposed) := offerUnits env.diskSize 3 0 1048576 0
    let unit : ℤ := if s.unit < 0 then proposed else s.unit
    let pos := if size ≠ 0 ∧ size < minExtSize then minExtSize else size
    let s := { s with
      size := size
      unit := unit
      unitSel := if unit < count then unit else -1
      unitCount := count
      sliderMax := toUnits unit env.maxSize }
    s.setPersistencePos env (toUnits unit pos)
  else { s with sliderMax := 0 }.setPersistencePos env 0

/-- `IDC_PERSISTENCE_SIZE`, `EN_CHANGE` -/
def change (env : PersistenceEnv) (typed : Option ℤ) (s : Controls) : Controls :=
  let s := { s with text := typed.getD s.text }
  if s.appChanged then { s with appChanged := false }
  else
    let size := min (fromUnits s.unitSel s.text) env.maxSize
    let s := { s with unit := s.unitSel, size := size }
    if env.maxSize ≤ size then
      { s with text := toLong (toUnits s.unit size), appChanged := true }
    else s

/-- `IDC_PERSISTENCE_SIZE`, `EN_KILLFOCUS` -/
def killFocus (s : Controls) : Controls :=
  if s.size = 0 then { s with text := 0, appChanged := true }
  else if s.size < minExtSize then
    { s with
      size := minExtSize
      text := toLong (toUnits s.unit minExtSize)
      appChanged := true }
  else s

/-- `IDC_PERSISTENCE_UNITS`, `CBN_SELCHANGE` -/
def units (env : PersistenceEnv) (sel : ℕ) (s : Controls) : Controls :=
  if (sel : ℤ) = s.unit then { s with unitSel := sel }
  else
    { s with
      size := fromUnits s.unit s.text
      unit := sel
      unitSel := sel }.setPersistenceSize env

/-- `WM_HSCROLL` -/
def slide (env : PersistenceEnv) (pos : ℕ) (s : Controls) : Controls :=
  { s.setPersistencePos env pos with size := fromUnits s.unit pos }

/-- A message. The controls are not enabled before `SetPersistenceSize` has
filled them, a number that is read is a `LONG`, and the slider and the units
have the positions that were set. -/
def step (env : PersistenceEnv) : UiEvent → Controls → Option Controls
  | .setPersistenceSize, s => some (s.setPersistenceSize env)
  | .change typed, s =>
      if 0 < s.unitCount ∧ ∀ v ∈ typed, -2 ^ 31 ≤ v ∧ v < 2 ^ 31 then
        some (s.change env typed)
      else none
  | .killFocus, s => if 0 < s.unitCount then some s.killFocus else none
  | .units sel, s => if sel < s.unitCount then some (s.units env sel) else none
  | .slide pos, s =>
      if 0 < s.unitCount ∧ pos ≤ s.sliderMax ∧ pos < 2 ^ 31 then
        some (s.slide env pos)
      else none

end Controls

/-- The controls as they are when a drive has been selected; the size may be
left from another one. -/
def persistenceUi (env : PersistenceEnv) : System Controls UiEvent where
  init s := s.unit = -1 ∧ s.unitSel = -1 ∧ s.unitCount = 0 ∧ s.size < 2 ^ 64
  step := Controls.step env

/-! ## What is meant -/

/-- What is left of the disk for a persistent partition -/
def PersistenceEnv.room (env : PersistenceEnv) : ℤ :=
  env.diskSize - (110 * env.projectedSize / 100 : ℕ)

namespace Controls

variable {env : PersistenceEnv} {s : Controls}

/-- The size is 0, or between the least one and the room there is. -/
def InBounds (env : PersistenceEnv) (s : Controls) : Prop :=
  s.size = 0 ∨ minExtSize ≤ s.size ∧ (s.size : ℤ) ≤ env.room

/-- The size behind the message is to be within the bounds. A selection of the
unit that is selected does nothing. -/
def Checks : UiEvent → Controls → Prop
  | .change _, _ => False
  | .killFocus, _ | .slide _, _ | .setPersistenceSize, _ => True
  | .units sel, s => (sel : ℤ) ≠ s.unit

/-- What is asked of `SetPersistenceSize`: nothing, or enough and there is room
for as much, or there is no room at all. -/
def AdmitsSize (env : PersistenceEnv) (size : ℕ) : Prop :=
  size = 0 ∨ env.room = 0 ∨ minExtSize ≤ size ∧ (minExtSize : ℤ) ≤ env.room

/-- The messages behind which the size is within the bounds. -/
def Admits (env : PersistenceEnv) : UiEvent → Controls → Prop
  | .change _, _ => True
  | .killFocus, s => s.size = 0 ∨ (minExtSize : ℤ) ≤ env.room
  | .slide pos, s => fromUnits s.unit pos = 0 ∨
      minExtSize ≤ fromUnits s.unit pos ∧ (minExtSize : ℤ) ≤ env.room
  | .units sel, s => (sel : ℤ) = s.unit ∨
      AdmitsSize env (fromUnits s.unit s.text)
  | .setPersistenceSize, s =>
      if env.selected then AdmitsSize env s.size else s.InBounds env

end Controls

/-! ## The room -/

section

variable {env : PersistenceEnv}

/-- As long as 110 % of the image are not too large for 64 bits, the difference
is the room, or wraps. -/
theorem PersistenceEnv.maxSize_cases (hwrap : 110 * env.projectedSize < 2 ^ 64) :
    0 ≤ env.room ∧ (env.maxSize : ℤ) = env.room ∨
      env.room < 0 ∧ 0 < env.maxSize := by
  have hdisk := env.diskSize_lt
  have hreserved : env.reserved = 110 * env.projectedSize / 100 := by
    rw [reserved, Nat.mod_eq_of_lt hwrap]
  have hsmall : env.reserved < 2 ^ 64 := by omega
  unfold room maxSize
  rw [← hreserved]
  rcases Nat.lt_or_ge env.diskSize env.reserved with hlt | hge
  · right
    rw [wrapSub, Nat.mod_eq_of_lt (by omega)]
    omega
  · left
    rw [wrapSub_of_le hge (by omega)]
    omega

theorem offerUnits_lt (diskSize : ℕ) : ∀ (n i baseUnit proposed : ℕ),
    proposed ≤ i → (offerUnits diskSize (n + 1) i baseUnit proposed).2
      < (offerUnits diskSize (n + 1) i baseUnit proposed).1
  | 0, i, baseUnit, proposed, h => by
      simp only [offerUnits, ite_self]
      split <;> omega
  | n + 1, i, baseUnit, proposed, h => by
      rw [offerUnits]
      split
      case isTrue =>
          show (if 7 * baseUnit < diskSize then i else proposed) < i + 1
          split <;> omega
      case isFalse =>
          apply offerUnits_lt
          split <;> omega

end

/-! ## The messages -/

namespace Controls

variable {env : PersistenceEnv} {s t : Controls} {e : UiEvent}

/-- What the controls keep once they are filled. -/
structure Filled (env : PersistenceEnv) (s : Controls) : Prop where
  selected : env.selected = true
  unitSel : s.unitSel = s.unit
  unit_nonneg : 0 ≤ s.unit
  unit_lt : s.unit < s.unitCount
  unitCount : s.unitCount = (offerUnits env.diskSize 3 0 1048576 0).1
  bounded : (minExtSize : ℤ) ≤ env.room → (s.size : ℤ) ≤ env.room
  slider : 0 ≤ env.room →
    ((s.sliderMax * 1048576 * 1024 ^ s.unit.toNat : ℕ) : ℤ) ≤ env.room

/-- The invariant of the controls -/
structure Ok (env : PersistenceEnv) (s : Controls) : Prop where
  empty : s.unitCount = 0 → s.unit < 0
  filled : 0 < s.unitCount → s.Filled env

theorem Filled.ok (h : s.Filled env) : s.Ok env := by
  have := h.unit_nonneg
  have := h.unit_lt
  exact ⟨fun _ => by omega, fun _ => h⟩

theorem toUnits_mul_le (unit : ℤ) (size : ℕ) :
    toUnits unit size * 1048576 * 1024 ^ unit.toNat ≤ size := by
  calc toUnits unit size * 1048576 * 1024 ^ unit.toNat
      = size / 1048576 / 1024 ^ unit.toNat * 1024 ^ unit.toNat * 1048576 :=
        Nat.mul_right_comm _ _ _
    _ ≤ size / 1048576 * 1048576 :=
        Nat.mul_le_mul_right _ (Nat.div_mul_le_self _ _)
    _ ≤ size := Nat.div_mul_le_self _ _

/-- A number that does not wrap is what it says, and one that wraps is less. -/
theorem fromUnits_le (unit : ℤ) (pos : ℕ) :
    fromUnits unit pos ≤ pos * 1048576 * 1024 ^ unit.toNat := by
  have hcast : (((pos : ℤ) * 1048576 % 2 ^ 64).toNat) = pos * 1048576 % 2 ^ 64 := by
    omega
  calc fromUnits unit pos
      ≤ ((pos : ℤ) * 1048576 % 2 ^ 64).toNat * 1024 ^ unit.toNat := Nat.mod_le _ _
    _ = pos * 1048576 % 2 ^ 64 * 1024 ^ unit.toNat := by rw [hcast]
    _ ≤ pos * 1048576 * 1024 ^ unit.toNat :=
        Nat.mul_le_mul_right _ (Nat.mod_le _ _)

@[simp] theorem slide_unit (pos : ℕ) : (s.slide env pos).unit = s.unit := rfl

@[simp] theorem slide_sliderMax (pos : ℕ) :
    (s.slide env pos).sliderMax = s.sliderMax := rfl

@[simp] theorem slide_size (pos : ℕ) :
    (s.slide env pos).size = fromUnits s.unit pos := rfl

theorem slide_filled (h : s.Filled env) {pos : ℕ} (hpos : pos ≤ s.sliderMax) :
    (s.slide env pos).Filled env := by
  refine ⟨h.selected, h.unitSel, h.unit_nonneg, h.unit_lt, h.unitCount, fun hmin => ?_,
    by simpa only [slide_unit, slide_sliderMax] using h.slider⟩
  have hle := fromUnits_le s.unit pos
  have hmul : pos * 1048576 * 1024 ^ s.unit.toNat
      ≤ s.sliderMax * 1048576 * 1024 ^ s.unit.toNat :=
    Nat.mul_le_mul_right _ (Nat.mul_le_mul_right _ hpos)
  have hslider := h.slider (by omega)
  rw [slide_size]
  omega

section

variable (hwrap : 110 * env.projectedSize < 2 ^ 64)
include hwrap

theorem setPersistenceSize_filled (hselected : env.selected = true)
    (hunit : 0 ≤ s.unit →
      s.unit < ((offerUnits env.diskSize 3 0 1048576 0).1 : ℕ)) :
    (s.setPersistenceSize env).Filled env := by
  have hproposed := offerUnits_lt env.diskSize 2 0 1048576 0 le_rfl
  obtain ⟨count, proposed, hoffered⟩ : ∃ count proposed,
    offerUnits env.diskSize 3 0 1048576 0 = (count, proposed) :=
      ⟨_, _, Prod.mk.eta.symm⟩
  simp only [hoffered] at hproposed hunit
  set unit : ℤ := if s.unit < 0 then proposed else s.unit with hdef
  have hrange : 0 ≤ unit ∧ unit < count := by
    rw [hdef]
    split <;> omega
  simp only [setPersistenceSize, if_pos hselected, hoffered, ← hdef,
    if_pos hrange.2]
  refine ⟨hselected, rfl, hrange.1, hrange.2, by rw [hoffered]; rfl, fun hmin => ?_,
    fun hroom => ?_⟩
  · have hmax := env.maxSize_cases hwrap
    show ((min s.size env.maxSize : ℕ) : ℤ) ≤ env.room
    omega
  · have hmax := env.maxSize_cases hwrap
    have hle := toUnits_mul_le unit env.maxSize
    show ((toUnits unit env.maxSize * 1048576 * 1024 ^ unit.toNat : ℕ) : ℤ) ≤ _
    omega

theorem setPersistenceSize_ok (h : s.Ok env) : (s.setPersistenceSize env).Ok env := by
  cases hselected : env.selected with
  | true =>
      refine (setPersistenceSize_filled hwrap hselected fun hunit => ?_).ok
      have hpos : 0 < s.unitCount := by
        by_contra hzero
        have := h.empty (by omega)
        omega
      have hfilled := h.filled hpos
      have hlt := hfilled.unit_lt
      have hcount := hfilled.unitCount
      omega
  | false =>
      simp only [setPersistenceSize, hselected, Bool.false_eq_true, if_false]
      refine ⟨h.empty, fun hpos => ?_⟩
      have hne := (h.filled hpos).selected
      rw [hselected] at hne
      cases hne

theorem change_filled (h : s.Filled env) (typed : Option ℤ) :
    (s.change env typed).Filled env := by
  have hmax := env.maxSize_cases hwrap
  have hunit := h.unitSel
  unfold change
  dsimp only
  split
  case isTrue =>
      exact ⟨h.selected, h.unitSel, h.unit_nonneg, h.unit_lt, h.unitCount, h.bounded,
        h.slider⟩
  case isFalse =>
      rw [hunit]
      have hbounded (size : ℕ) (hmin : (minExtSize : ℤ) ≤ env.room) :
          ((min size env.maxSize : ℕ) : ℤ) ≤ env.room := by omega
      split
      all_goals exact ⟨h.selected, rfl, h.unit_nonneg, h.unit_lt, h.unitCount,
        hbounded _, h.slider⟩

theorem step_ok (h : s.Ok env) (hstep : s.step env e = some t) : t.Ok env := by
  cases e with
  | setPersistenceSize =>
      cases hstep
      exact setPersistenceSize_ok hwrap h
  | change typed =>
      simp only [step, Option.ite_none_right_eq_some, Option.some.injEq] at hstep
      obtain ⟨⟨hpos, -⟩, rfl⟩ := hstep
      exact (change_filled hwrap (h.filled hpos) typed).ok
  | killFocus =>
      simp only [step, Option.ite_none_right_eq_some, Option.some.injEq] at hstep
      obtain ⟨hpos, rfl⟩ := hstep
      have hf := h.filled hpos
      refine Filled.ok ?_
      unfold killFocus
      split
      · exact ⟨hf.selected, hf.unitSel, hf.unit_nonneg, hf.unit_lt, hf.unitCount,
          hf.bounded, hf.slider⟩
      · split
        · exact ⟨hf.selected, hf.unitSel, hf.unit_nonneg, hf.unit_lt, hf.unitCount,
            id, hf.slider⟩
        · exact hf
  | units sel =>
      simp only [step, Option.ite_none_right_eq_some, Option.some.injEq] at hstep
      obtain ⟨hsel, rfl⟩ := hstep
      have hf := h.filled (by omega)
      have hcount := hf.unitCount
      refine Filled.ok ?_
      unfold units
      split
      case isTrue hsame =>
          exact ⟨hf.selected, hsame, hf.unit_nonneg, hf.unit_lt, hf.unitCount,
            hf.bounded, hf.slider⟩
      case isFalse =>
          refine setPersistenceSize_filled hwrap hf.selected fun _ => ?_
          show (sel : ℤ) < _
          omega
  | slide pos =>
      simp only [step, Option.ite_none_right_eq_some, Option.some.injEq] at hstep
      obtain ⟨⟨hpos, hmax, -⟩, rfl⟩ := hstep
      exact (slide_filled (h.filled hpos) hmax).ok

/-! ## The bounds -/

theorem setPersistenceSize_inBounds (hselected : env.selected = true) :
    (s.setPersistenceSize env).InBounds env ↔ AdmitsSize env s.size := by
  have hmax := env.maxSize_cases hwrap
  have hsize : (s.setPersistenceSize env).size = min s.size env.maxSize := by
    rw [setPersistenceSize, if_pos hselected]
    rfl
  unfold InBounds AdmitsSize
  rw [hsize]
  omega

/-- Behind a message the size is within the bounds exactly if the message is
admitted. -/
theorem step_inBounds_iff (h : s.Ok env) (hstep : s.step env e = some t)
    (hchecks : s.Checks e) : t.InBounds env ↔ s.Admits env e := by
  cases e with
  | change => exact hchecks.elim
  | setPersistenceSize =>
      cases hstep
      cases hselected : env.selected with
      | true =>
          simp only [Admits, hselected, if_true]
          exact setPersistenceSize_inBounds hwrap hselected
      | false =>
          have hsize : (s.setPersistenceSize env).size = s.size := by
            rw [setPersistenceSize, hselected]
            rfl
          simp only [Admits, hselected, Bool.false_eq_true, if_false, InBounds, hsize]
  | killFocus =>
      simp only [step, Option.ite_none_right_eq_some, Option.some.injEq] at hstep
      obtain ⟨hpos, rfl⟩ := hstep
      have hbounded := (h.filled hpos).bounded
      unfold killFocus
      split
      case isTrue hzero => exact ⟨fun _ => .inl hzero, fun _ => .inl hzero⟩
      case isFalse hne =>
          split
          case isTrue =>
              show minExtSize = 0 ∨ minExtSize ≤ minExtSize ∧
                  (minExtSize : ℤ) ≤ env.room
                ↔ s.size = 0 ∨ (minExtSize : ℤ) ≤ env.room
              omega
          case isFalse =>
              show s.size = 0 ∨ minExtSize ≤ s.size ∧ (s.size : ℤ) ≤ env.room
                ↔ s.size = 0 ∨ (minExtSize : ℤ) ≤ env.room
              omega
  | units sel =>
      simp only [step, Option.ite_none_right_eq_some, Option.some.injEq] at hstep
      obtain ⟨hsel, rfl⟩ := hstep
      have hf := h.filled (by omega)
      have hne : ¬(sel : ℤ) = s.unit := hchecks
      rw [units, if_neg hne, setPersistenceSize_inBounds hwrap hf.selected]
      exact (or_iff_right hne).symm
  | slide pos =>
      simp only [step, Option.ite_none_right_eq_some, Option.some.injEq] at hstep
      obtain ⟨⟨hpos, hmax, -⟩, rfl⟩ := hstep
      have hslid := (slide_filled (h.filled hpos) hmax).bounded
      show fromUnits s.unit pos = 0 ∨ minExtSize ≤ fromUnits s.unit pos ∧
          ((fromUnits s.unit pos : ℕ) : ℤ) ≤ env.room
        ↔ fromUnits s.unit pos = 0 ∨
          minExtSize ≤ fromUnits s.unit pos ∧ (minExtSize : ℤ) ≤ env.room
      replace hslid : (minExtSize : ℤ) ≤ env.room →
        ((fromUnits s.unit pos : ℕ) : ℤ) ≤ env.room := hslid
      omega

end

end Controls

theorem persistenceUi_ok {env : PersistenceEnv}
    (hwrap : 110 * env.projectedSize < 2 ^ 64) {s : Controls}
    (h : (persistenceUi env).Reachable s) : s.Ok env := by
  refine h.invariant (I := Controls.Ok env) (fun s hs => ?_)
    fun s e t (hs : s.Ok env) (hstep : s.step env e = some t) =>
      Controls.step_ok hwrap hs hstep
  obtain ⟨hunit, -, hcount, -⟩ := hs
  exact ⟨fun _ => by omega, fun hpos => by omega⟩

/-- **The size of the persistent partition is within its bounds exactly behind
the messages that are admitted**, whatever came before them: nothing is asked
for, or at least the least size, and there is room for that. So it is within
them throughout a run of admitted messages. -/
theorem persistenceSize_inBounds (env : PersistenceEnv) :
    (110 * env.projectedSize < 2 ^ 64 → ∀ s e t,
      (persistenceUi env).Reachable s → s.step env e = some t → s.Checks e →
        (t.InBounds env ↔ s.Admits env e)) ∧
    ∀ s e t, (persistenceUi env).Along
        (fun e s => 110 * env.projectedSize < 2 ^ 64 ∧ s.Admits env e) s →
      s.step env e = some t → s.Checks e →
        110 * env.projectedSize < 2 ^ 64 ∧ s.Admits env e → t.InBounds env := by
  have hiff (hwrap : 110 * env.projectedSize < 2 ^ 64) (s : Controls) (e : UiEvent)
      (t : Controls) (hs : (persistenceUi env).Reachable s)
      (hstep : s.step env e = some t) (hchecks : s.Checks e) :
      t.InBounds env ↔ s.Admits env e :=
    Controls.step_inBounds_iff hwrap (persistenceUi_ok hwrap hs) hstep hchecks
  refine ⟨hiff, ?_⟩
  rintro s e t hs hstep hchecks ⟨hwrap, hadmits⟩
  exact (hiff hwrap s e t hs.reachable hstep hchecks).mpr hadmits

/-- A drive of 32 GB, and an image of 2 GB. -/
def roomyDrive : PersistenceEnv :=
  ⟨32 * 1073741824, 2 * 1073741824, true, true, by decide⟩

/-- A drive that the image just fits. -/
def filledDrive : PersistenceEnv :=
  ⟨4 * 1073741824, 4 * 1073741824, true, true, by decide⟩

def freshControls : Controls := ⟨false, 0, -1, 0, -1, 0, 0⟩

/-- The slider at 512 megabytes. -/
theorem persistenceSize_inBounds_roomyDrive :
    Controls.InBounds roomyDrive ⟨true, 536870912, 0, 512, 0, 2, 30515⟩ := by
  have hmegabytes : System.run (persistenceUi roomyDrive)
      [.setPersistenceSize, .units 0] freshControls
      = some ⟨true, 0, 0, 0, 0, 2, 30515⟩ := by decide
  have hfresh : (persistenceUi roomyDrive).Reachable freshControls :=
    .init ⟨rfl, rfl, rfl, by decide⟩
  have hadmits : Controls.Admits roomyDrive (.slide 512)
      ⟨true, 0, 0, 0, 0, 2, 30515⟩ := .inr (by decide)
  exact ((persistenceSize_inBounds roomyDrive).1 (by decide) _ (.slide 512) _
    (hfresh.run hmegabytes) (by decide) trivial).mpr hadmits

/-- The slider at one megabyte; and 4096 megabytes typed, and left, where 110 %
of the image are more than the disk. -/
theorem persistenceSize_outOfBounds :
    (∃ s t, (persistenceUi roomyDrive).Reachable s ∧
      s.step roomyDrive (.slide 1) = some t ∧ s.Checks (.slide 1) ∧
      t.size = 1048576 ∧ ¬t.InBounds roomyDrive) ∧
    ∃ s t, (persistenceUi filledDrive).Reachable s ∧
      s.step filledDrive .killFocus = some t ∧ s.Checks .killFocus ∧
      t.size = 4 * 1073741824 ∧ ¬t.InBounds filledDrive := by
  have hslide : System.run (persistenceUi roomyDrive)
      [.setPersistenceSize, .units 0] freshControls
      = some ⟨true, 0, 0, 0, 0, 2, 30515⟩ := by decide
  have htyped : System.run (persistenceUi filledDrive)
      [.setPersistenceSize, .change none, .units 0, .change none,
        .change (some 4096)] freshControls
      = some ⟨false, 4 * 1073741824, 0, 4096, 0, 2, 17592186044006⟩ := by decide
  have hfresh (env : PersistenceEnv) : (persistenceUi env).Reachable freshControls :=
    .init ⟨rfl, rfl, rfl, by decide⟩
  exact ⟨⟨_, _, (hfresh _).run hslide, rfl, trivial, by decide, by
    unfold Controls.InBounds; decide⟩, _, _, (hfresh _).run htyped, rfl, trivial,
    by decide, by unfold Controls.InBounds; decide⟩

end Nawam
