import Nawam.Base.CheckedInt
import Nawam.Base.Index
import Nawam.Base.RunningShares
import Mathlib.Algebra.Order.BigOperators.Group.List
import Mathlib.Data.Fin.VecNotation
import Mathlib.Data.Int.DivMod
import Mathlib.Logic.Function.Basic
import Mathlib.Tactic.Linarith

/-!
# The layout of the license dialog

`NawamFitLicenseLayout` makes the dialog as small as the monitor, and gives its three panes what
is left of the height, in proportion to the heights that they had. The controls are in reading
order: notice, label, credits, label, GPL, Close.

The function is written over `int`, which says what is done with each value that is computed:
`checked` is the run of the code, which faults where a value is no `int`, and `Except.ok` is the
run on integers without a bound.
-/

namespace Nawam

/-! ## Source -/

structure NawamLayoutRect where
  x : ℤ
  y : ℤ
  width : ℤ
  height : ℤ
  deriving DecidableEq

abbrev LicenseControls : Type := Fin 6 → NawamLayoutRect

/-- The variables of the loop that places the controls -/
structure FitState where
  controls : LicenseControls
  remaining : ℤ
  weight : ℤ
  y : ℤ

section

variable (int : ℤ → CInt ℤ)

def widthsFit (dx : ℤ) (controls : LicenseControls) : List (Fin 6) → CInt Bool
  | [] => .ok true
  | i :: is => do
      let width ← int ((controls i).width + dx)
      if width ≤ 0 then .ok false else widthsFit dx controls is

/-- `gaps[i]` -/
def gapAbove (controls : LicenseControls) (i : Fin 6) : CInt ℤ :=
  if i = 0 then .ok (controls 0).y
  else do
    let d ← int ((controls i).y - (controls (i - 1)).y)
    int (d - (controls (i - 1)).height)

/-- The height of a control, and what remains for the panes behind it: its size and the sum of
their heights -/
def shareOut (s : FitState) (i : Fin 6) : CInt (ℤ × ℤ × ℤ) :=
  if i = 0 ∨ i = 2 ∨ i = 4 then do
    let oldHeight := (s.controls i).height
    let product ← int (s.remaining * oldHeight)
    let height ← divInt int product s.weight
    let remaining ← int (s.remaining - height)
    let weight ← int (s.weight - oldHeight)
    .ok (height, remaining, weight)
  else .ok ((s.controls i).height, s.remaining, s.weight)

/-- Where a control begins from the left, and how wide it is -/
def stretch (dx windowWidth frameWidth : ℤ) (control : NawamLayoutRect) (i : Fin 6) :
    CInt (ℤ × ℤ) :=
  if i < 5 then do
    let width ← int (control.width + dx)
    .ok (control.x, width)
  else do
    let inner ← int (windowWidth - frameWidth)
    let half ← divInt int inner 2
    if half < control.x then do
      let x ← int (control.x + dx)
      .ok (x, control.width)
    else .ok (control.x, control.width)

def placeControl (dx windowWidth frameWidth : ℤ) (s : FitState) (i : Fin 6) (gap : ℤ) :
    CInt FitState := do
  let y ← int (s.y + gap)
  let (height, remaining, weight) ← shareOut int s i
  let (x, width) ← stretch int dx windowWidth frameWidth (s.controls i) i
  let bottom ← int (y + height)
  .ok { controls := Function.update s.controls i ⟨x, y, width, height⟩, remaining, weight
        y := bottom }

def placeControls (dx windowWidth frameWidth : ℤ) : List (Fin 6) → List ℤ → FitState → CInt FitState
  | i :: is, gap :: gaps, s => do
      let s ← placeControl int dx windowWidth frameWidth s i gap
      placeControls dx windowWidth frameWidth is gaps s
  | _, _, s => .ok s

/-- The window moved into the work area, in one direction -/
def moveInto (start size extent position : ℤ) : CInt ℤ := do
  let stop ← int (start + size)
  let last ← int (stop - extent)
  let position := if last < position then last else position
  .ok (if position < start then start else position)

/-- `NawamFitLicenseLayout`: what it returns, the window and the controls -/
def nawamFitLicenseLayout (work window : NawamLayoutRect) (frameWidth frameHeight : ℤ)
    (controls : LicenseControls) : CInt (Bool × NawamLayoutRect × LicenseControls) :=
  if work.width ≤ frameWidth ∨ work.height ≤ frameHeight then .ok (false, window, controls)
  else do
    let width := if window.width < work.width then window.width else work.width
    let height := if window.height < work.height then window.height else work.height
    let dx ← int (width - window.width)
    let upper ← int ((controls 0).height + (controls 2).height)
    let total ← int (upper + (controls 4).height)
    let grown ← int (total + height)
    let available ← int (grown - window.height)
    if total ≤ 0 ∨ available < 3 then .ok (false, window, controls)
    else do
      let inner ← int (width - frameWidth)
      if inner < (controls 5).width then .ok (false, window, controls)
      else do
        let fits ← widthsFit int dx controls [0, 1, 2, 3, 4]
        if ¬fits then .ok (false, window, controls)
        else do
          let gaps ← [0, 1, 2, 3, 4, 5].mapM (gapAbove int controls)
          let s ← placeControls int dx window.width frameWidth [0, 1, 2, 3, 4, 5] gaps
            ⟨controls, available, total, 0⟩
          let x ← moveInto int work.x work.width width window.x
          let y ← moveInto int work.y work.height height window.y
          .ok (true, ⟨x, y, width, height⟩, s.controls)

end

/-! ## The size of the window -/

def fitWidth (work window : NawamLayoutRect) : ℤ := min window.width work.width

def fitHeight (work window : NawamLayoutRect) : ℤ := min window.height work.height

theorem fitWidth_eq (work window : NawamLayoutRect) :
    (if window.width < work.width then window.width else work.width) = fitWidth work window := by
  rw [fitWidth]
  split <;> omega

theorem fitHeight_eq (work window : NawamLayoutRect) :
    (if window.height < work.height then window.height else work.height) =
      fitHeight work window := by
  rw [fitHeight]
  split <;> omega

/-! ## The check is all that is left out -/

section

open CInt

theorem widthsFit_agrees (dx : ℤ) (controls : LicenseControls) : ∀ is : List (Fin 6),
    Agrees (widthsFit checked dx controls is) (widthsFit .ok dx controls is)
  | [] => .refl _
  | _ :: is => (Agrees.checked _).bind fun _ => .ite (.refl _) (widthsFit_agrees dx controls is)

theorem gapAbove_agrees (controls : LicenseControls) (i : Fin 6) :
    Agrees (gapAbove checked controls i) (gapAbove .ok controls i) :=
  .ite (.refl _) ((Agrees.checked _).bind fun _ => .checked _)

theorem shareOut_agrees (s : FitState) (i : Fin 6) :
    Agrees (shareOut checked s i) (shareOut .ok s i) := by
  refine .ite ?_ (.refl _)
  refine (Agrees.checked _).bind fun _ => (Agrees.divInt _ _).bind fun _ => ?_
  exact (Agrees.checked _).bind fun _ => (Agrees.checked _).bind fun _ => .refl _

theorem stretch_agrees (dx windowWidth frameWidth : ℤ) (control : NawamLayoutRect) (i : Fin 6) :
    Agrees (stretch checked dx windowWidth frameWidth control i)
      (stretch .ok dx windowWidth frameWidth control i) := by
  refine .ite ((Agrees.checked _).bind fun _ => .refl _) ?_
  refine (Agrees.checked _).bind fun _ => (Agrees.divInt _ _).bind fun _ => ?_
  exact .ite ((Agrees.checked _).bind fun _ => .refl _) (.refl _)

theorem placeControls_agrees (dx windowWidth frameWidth : ℤ) :
    ∀ (is : List (Fin 6)) (gaps : List ℤ) (s : FitState),
      Agrees (placeControls checked dx windowWidth frameWidth is gaps s)
        (placeControls .ok dx windowWidth frameWidth is gaps s)
  | [], _, _ => .refl _
  | _ :: _, [], _ => .refl _
  | i :: is, gap :: gaps, s => by
      refine Agrees.bind ?_ fun s => placeControls_agrees dx windowWidth frameWidth is gaps s
      refine (Agrees.checked _).bind fun _ => (shareOut_agrees s i).bind fun _ => ?_
      refine (stretch_agrees dx windowWidth frameWidth _ i).bind fun _ => ?_
      exact (Agrees.checked _).bind fun _ => .refl _

theorem moveInto_agrees (start size extent position : ℤ) :
    Agrees (moveInto checked start size extent position)
      (moveInto .ok start size extent position) :=
  (Agrees.checked _).bind fun _ => (Agrees.checked _).bind fun _ => .refl _

/-- The run of the code is the one on integers, unless a value is no `int`. -/
theorem nawamFitLicenseLayout_agrees (work window : NawamLayoutRect) (frameWidth frameHeight : ℤ)
    (controls : LicenseControls) :
    Agrees (nawamFitLicenseLayout checked work window frameWidth frameHeight controls)
      (nawamFitLicenseLayout .ok work window frameWidth frameHeight controls) := by
  refine .ite (.refl _) ?_
  refine (Agrees.checked _).bind fun dx => (Agrees.checked _).bind fun _ => ?_
  refine (Agrees.checked _).bind fun _ => (Agrees.checked _).bind fun _ => ?_
  refine (Agrees.checked _).bind fun _ => .ite (.refl _) ?_
  refine (Agrees.checked _).bind fun _ => .ite (.refl _) ?_
  refine (widthsFit_agrees dx controls _).bind fun _ => .ite (.refl _) ?_
  refine (Agrees.mapM (gapAbove_agrees controls) _).bind fun gaps => ?_
  refine (placeControls_agrees dx _ _ _ gaps _).bind fun _ => ?_
  exact (moveInto_agrees ..).bind fun _ => (moveInto_agrees ..).bind fun _ => .refl _

end

/-! ## A dialog on a screen fits `int` -/

def IsPane (i : Fin 6) : Prop := i = 0 ∨ i = 2 ∨ i = 4

/-- A place and a size of at most `2 ^ 14` pixels -/
structure OnScreen (r : NawamLayoutRect) : Prop where
  x : -2 ^ 14 ≤ r.x ∧ r.x ≤ 2 ^ 14
  y : -2 ^ 14 ≤ r.y ∧ r.y ≤ 2 ^ 14
  width : -2 ^ 14 ≤ r.width ∧ r.width ≤ 2 ^ 14
  height : -2 ^ 14 ≤ r.height ∧ r.height ≤ 2 ^ 14

def paneWeight (controls : LicenseControls) (i : Fin 6) : ℤ :=
  if i = 0 ∨ i = 2 ∨ i = 4 then (controls i).height else 0

/-- Before the controls `is` are placed: they are on the screen, the weight is theirs, and there
is room for the position to go on. -/
structure FitAhead (is : List (Fin 6)) (s : FitState) : Prop where
  controls : ∀ i ∈ is, OnScreen (s.controls i)
  pane : ∀ i ∈ is, 0 ≤ paneWeight s.controls i
  remaining : 0 ≤ s.remaining ∧ s.remaining ≤ 3 * 2 ^ 14
  weight : s.weight = (is.map (paneWeight s.controls)).sum
  weight_le : s.weight ≤ 3 * 2 ^ 14
  y : -2 ^ 20 + is.length * 2 ^ 17 ≤ s.y ∧ s.y ≤ 2 ^ 20 - is.length * 2 ^ 17

section

open CInt

variable {dx windowWidth frameWidth gap : ℤ} {controls : LicenseControls} {s : FitState}
  {i : Fin 6} {is : List (Fin 6)}

theorem widthsFit_fits (hdx : -2 ^ 15 ≤ dx ∧ dx ≤ 2 ^ 15) (hcontrols : ∀ i, OnScreen (controls i))
    (is : List (Fin 6)) : Fits (widthsFit checked dx controls is) fun _ => True := by
  induction is with
  | nil => exact trivial
  | cons i is ih =>
      have hwidth := (hcontrols i).width
      refine Fits.bindChecked (by omega) (by omega) ?_
      exact .ite (fun _ => trivial) fun _ => ih

theorem gapAbove_fits (hcontrols : ∀ i, OnScreen (controls i)) (i : Fin 6) :
    Fits (gapAbove checked controls i) fun gap => -(3 * 2 ^ 14) ≤ gap ∧ gap ≤ 3 * 2 ^ 14 := by
  have h₀ := (hcontrols 0).y
  have hy := (hcontrols i).y
  have habove := (hcontrols (i - 1)).y
  have hheight := (hcontrols (i - 1)).height
  refine .ite (fun _ => Fits.ok (by omega)) fun _ => ?_
  refine Fits.bindChecked (by omega) (by omega) ?_
  refine (Fits.checked (by omega) (by omega)).mono ?_
  rintro _ rfl
  omega

theorem FitAhead.rest_nonneg (h : FitAhead (i :: is) s) :
    0 ≤ (is.map (paneWeight s.controls)).sum := by
  refine List.sum_nonneg fun w hw => ?_
  obtain ⟨j, hj, rfl⟩ := List.mem_map.mp hw
  exact h.pane j (List.mem_cons_of_mem _ hj)

theorem shareOut_fits (h : FitAhead (i :: is) s) :
    Fits (shareOut checked s i) fun (height, remaining, weight) =>
      (-2 ^ 14 ≤ height ∧ height ≤ 3 * 2 ^ 14) ∧ (0 ≤ remaining ∧ remaining ≤ 3 * 2 ^ 14) ∧
      weight = (is.map (paneWeight s.controls)).sum := by
  have hweight := h.weight
  have hrest := h.rest_nonneg
  have hsmall := (h.controls i List.mem_cons_self).height
  have hpane := h.pane i List.mem_cons_self
  obtain ⟨hremaining, hremaining'⟩ := h.remaining
  have hle := h.weight_le
  rw [List.map_cons, List.sum_cons] at hweight
  rw [shareOut]
  by_cases hi : i = 0 ∨ i = 2 ∨ i = 4
  · rw [if_pos hi]
    rw [paneWeight, if_pos hi] at hpane hweight
    have hproduct : s.remaining * (s.controls i).height ≤ 3 * 2 ^ 14 * 2 ^ 14 :=
      mul_le_mul hremaining' hsmall.2 hpane (by decide)
    have hproduct' := mul_nonneg hremaining hpane
    have hshare (hne : s.weight ≠ 0) :=
      share_bounds hremaining hpane (by omega) (show 0 < s.weight by omega)
    refine Fits.bindChecked (by omega) (by omega) ?_
    refine (Fits.divInt fun hne => ?_).bind ?_
    · have := hshare hne
      omega
    rintro _ ⟨hne, rfl⟩
    obtain ⟨hlow, hhigh⟩ := hshare hne
    refine Fits.bindChecked (by omega) (by omega) ?_
    refine Fits.bindChecked (by omega) (by omega) ?_
    exact Fits.ok (by omega)
  · rw [if_neg hi]
    rw [paneWeight, if_neg hi] at hweight
    exact Fits.ok (by omega)

theorem stretch_fits (hdx : -2 ^ 15 ≤ dx ∧ dx ≤ 2 ^ 15)
    (hwindow : -2 ^ 14 ≤ windowWidth ∧ windowWidth ≤ 2 ^ 14)
    (hframe : -2 ^ 14 ≤ frameWidth ∧ frameWidth ≤ 2 ^ 14) {control : NawamLayoutRect}
    (hcontrol : OnScreen control) (i : Fin 6) :
    Fits (stretch checked dx windowWidth frameWidth control i) fun _ => True := by
  have hx := hcontrol.x
  have hwidth := hcontrol.width
  refine .ite (fun _ => ?_) fun _ => ?_
  · exact Fits.bindChecked (by omega) (by omega) trivial
  · refine Fits.bindChecked (by omega) (by omega) ?_
    have hhalf := Int.mul_tdiv_add_tmod (windowWidth - frameWidth) 2
    have hmod := Int.tmod_lt_of_pos (windowWidth - frameWidth) (show (0 : ℤ) < 2 by decide)
    have hmod' := Int.lt_tmod_of_pos (windowWidth - frameWidth) (show (0 : ℤ) < 2 by decide)
    refine (Fits.divInt fun _ => by omega).bind fun _ _ => .ite (fun _ => ?_) fun _ => trivial
    exact Fits.bindChecked (by omega) (by omega) trivial

theorem paneWeight_update {j : Fin 6} (hj : j ≠ i) (control : NawamLayoutRect) :
    paneWeight (Function.update controls i control) j = paneWeight controls j := by
  rw [paneWeight, paneWeight, Function.update_of_ne hj]

theorem paneWeight_nonneg (hpanes : ∀ i, IsPane i → 0 ≤ (controls i).height) (i : Fin 6) :
    0 ≤ paneWeight controls i := by
  rw [paneWeight]
  split
  · next hi => exact hpanes i hi
  · rfl

theorem placeControl_fits (hdx : -2 ^ 15 ≤ dx ∧ dx ≤ 2 ^ 15)
    (hwindow : -2 ^ 14 ≤ windowWidth ∧ windowWidth ≤ 2 ^ 14)
    (hframe : -2 ^ 14 ≤ frameWidth ∧ frameWidth ≤ 2 ^ 14)
    (hgap : -(3 * 2 ^ 14) ≤ gap ∧ gap ≤ 3 * 2 ^ 14) (hi : i ∉ is) (h : FitAhead (i :: is) s) :
    Fits (placeControl checked dx windowWidth frameWidth s i gap) (FitAhead is) := by
  have hy := h.y
  rw [List.length_cons, Nat.cast_succ] at hy
  refine Fits.bindChecked (by omega) (by omega) ?_
  refine (shareOut_fits h).bind ?_
  rintro ⟨height, remaining, weight⟩ ⟨hheight, hremaining, rfl⟩
  refine (stretch_fits hdx hwindow hframe (h.controls i List.mem_cons_self) i).bind ?_
  rintro ⟨x, width⟩ -
  refine Fits.bindChecked (by omega) (by omega) ?_
  have hother (j : Fin 6) (hj : j ∈ is) : j ≠ i := fun h => hi (h ▸ hj)
  have hweight := h.weight
  have hpane := h.pane i List.mem_cons_self
  have hle := h.weight_le
  rw [List.map_cons, List.sum_cons] at hweight
  refine ⟨?_, ?_, hremaining, ?_, ?_, ?_⟩
  · intro j hj
    dsimp only
    rw [Function.update_of_ne (hother j hj)]
    exact h.controls j (List.mem_cons_of_mem _ hj)
  · intro j hj
    rw [paneWeight_update (hother j hj)]
    exact h.pane j (List.mem_cons_of_mem _ hj)
  · rw [List.map_congr_left fun j hj => paneWeight_update (hother j hj) _]
  · dsimp only
    omega
  · dsimp only
    omega

theorem placeControls_fits (hdx : -2 ^ 15 ≤ dx ∧ dx ≤ 2 ^ 15)
    (hwindow : -2 ^ 14 ≤ windowWidth ∧ windowWidth ≤ 2 ^ 14)
    (hframe : -2 ^ 14 ≤ frameWidth ∧ frameWidth ≤ 2 ^ 14) {gaps : List ℤ}
    (hgaps : ∀ gap ∈ gaps, -(3 * 2 ^ 14) ≤ gap ∧ gap ≤ 3 * 2 ^ 14) (his : is.Nodup)
    (h : FitAhead is s) :
    Fits (placeControls checked dx windowWidth frameWidth is gaps s) fun _ => True := by
  induction is generalizing s gaps with
  | nil => exact trivial
  | cons i is ih =>
      cases gaps with
      | nil => exact trivial
      | cons gap gaps =>
          obtain ⟨hi, his⟩ := List.nodup_cons.mp his
          rw [List.forall_mem_cons] at hgaps
          refine (placeControl_fits hdx hwindow hframe hgaps.1 hi h).bind fun s hs => ?_
          exact ih hgaps.2 his hs

theorem moveInto_fits {start size extent position : ℤ} (hstart : -2 ^ 14 ≤ start ∧ start ≤ 2 ^ 14)
    (hsize : -2 ^ 14 ≤ size ∧ size ≤ 2 ^ 14) (hextent : -2 ^ 14 ≤ extent ∧ extent ≤ 2 ^ 14) :
    Fits (moveInto checked start size extent position) fun _ => True := by
  refine Fits.bindChecked (by omega) (by omega) ?_
  exact Fits.bindChecked (by omega) (by omega) trivial

/-- No value is out of the range of `int` for a dialog on a screen. -/
theorem nawamFitLicenseLayout_noOverflow {work window : NawamLayoutRect} (frameHeight : ℤ)
    (hwork : OnScreen work) (hwindow : OnScreen window)
    (hframe : -2 ^ 14 ≤ frameWidth ∧ frameWidth ≤ 2 ^ 14)
    (hcontrols : ∀ i, OnScreen (controls i))
    (hpanes : ∀ i, IsPane i → 0 ≤ (controls i).height) :
    nawamFitLicenseLayout checked work window frameWidth frameHeight controls ≠
      .error .overflow := by
  rw [nawamFitLicenseLayout, fitWidth_eq, fitHeight_eq]
  refine Fits.ne_overflow (P := fun _ => True) (.ite (fun _ => trivial) fun _ => ?_)
  have hwidth : -2 ^ 14 ≤ fitWidth work window ∧ fitWidth work window ≤ 2 ^ 14 := by
    have := hwork.width
    have := hwindow.width
    rw [fitWidth]
    omega
  have hheight : -2 ^ 14 ≤ fitHeight work window ∧ fitHeight work window ≤ 2 ^ 14 := by
    have := hwork.height
    have := hwindow.height
    rw [fitHeight]
    omega
  have hlost : fitHeight work window ≤ window.height := min_le_left ..
  have hx := hwindow.width
  have hy := hwindow.height
  have h₀ := (hcontrols 0).height
  have h₂ := (hcontrols 2).height
  have h₄ := (hcontrols 4).height
  have hclose := (hcontrols 5).width
  refine Fits.bindChecked (by omega) (by omega) ?_
  refine Fits.bindChecked (by omega) (by omega) ?_
  refine Fits.bindChecked (by omega) (by omega) ?_
  refine Fits.bindChecked (by omega) (by omega) ?_
  refine Fits.bindChecked (by omega) (by omega) ?_
  refine .ite (fun _ => trivial) fun hroom => ?_
  refine Fits.bindChecked (by omega) (by omega) ?_
  refine .ite (fun _ => trivial) fun _ => ?_
  refine (widthsFit_fits (by omega) hcontrols _).bind fun _ _ => .ite (fun _ => trivial) fun _ => ?_
  refine (Fits.mapM fun i _ => gapAbove_fits hcontrols i).bind fun gaps hgaps => ?_
  have hahead : FitAhead [0, 1, 2, 3, 4, 5] ⟨controls,
      (controls 0).height + (controls 2).height + (controls 4).height + fitHeight work window -
        window.height,
      (controls 0).height + (controls 2).height + (controls 4).height, 0⟩ := by
    have hsum : ([0, 1, 2, 3, 4, 5].map (paneWeight controls)).sum = (controls 0).height +
        (0 + ((controls 2).height + (0 + ((controls 4).height + (0 + 0))))) := rfl
    refine ⟨fun i _ => hcontrols i, fun i _ => paneWeight_nonneg hpanes i,
      by dsimp only; omega, ?_, by dsimp only; omega, by dsimp only [List.length]; omega⟩
    dsimp only
    rw [hsum]
    omega
  refine (placeControls_fits (by omega) hx hframe hgaps (by decide) hahead).bind fun _ _ => ?_
  refine (moveInto_fits hwork.x hwork.width (by omega)).bind fun _ _ => ?_
  exact (moveInto_fits hwork.y hwork.height (by omega)).bind fun _ _ => trivial

end

/-! ## The controls are placed -/

/-- What a turn of the loop does -/
structure ControlPlaced (dx : ℤ) (s s' : FitState) (i : Fin 6) (gap : ℤ) : Prop where
  other : ∀ j ≠ i, s'.controls j = s.controls j
  top : (s'.controls i).y = s.y + gap
  bottom : s'.y = s.y + gap + (s'.controls i).height
  pane : IsPane i →
    (s'.controls i).height = (s.remaining * (s.controls i).height).tdiv s.weight ∧
    s'.remaining = s.remaining - (s'.controls i).height ∧
    s'.weight = s.weight - (s.controls i).height
  rest : ¬IsPane i → (s'.controls i).height = (s.controls i).height ∧
    s'.remaining = s.remaining ∧ s'.weight = s.weight
  width : i < 5 → (s'.controls i).width = (s.controls i).width + dx
  close : ¬i < 5 → (s'.controls i).width = (s.controls i).width

section

variable {dx windowWidth frameWidth gap : ℤ} {s : FitState} {i : Fin 6}

theorem stretch_ok (dx windowWidth frameWidth : ℤ) (control : NawamLayoutRect) (i : Fin 6) :
    ∃ x width, stretch .ok dx windowWidth frameWidth control i = .ok (x, width) ∧
      (i < 5 → width = control.width + dx) ∧ (¬i < 5 → width = control.width) := by
  unfold stretch
  by_cases hi : i < 5
  · rw [if_pos hi]
    exact ⟨_, _, rfl, fun _ => rfl, fun h => absurd hi h⟩
  · rw [if_neg hi]
    simp only [CInt.ok_bind, divInt, if_neg (show ¬(2 : ℤ) = 0 by decide)]
    split
    · exact ⟨_, _, rfl, fun h => absurd h hi, fun _ => rfl⟩
    · exact ⟨_, _, rfl, fun h => absurd h hi, fun _ => rfl⟩

/-- The control with its new place, and the variables behind it -/
theorem placed_update {x width height remaining weight : ℤ}
    (hpane : IsPane i → height = (s.remaining * (s.controls i).height).tdiv s.weight ∧
      remaining = s.remaining - height ∧ weight = s.weight - (s.controls i).height)
    (hrest : ¬IsPane i → height = (s.controls i).height ∧ remaining = s.remaining ∧
      weight = s.weight)
    (hwidth : i < 5 → width = (s.controls i).width + dx)
    (hclose : ¬i < 5 → width = (s.controls i).width) :
    ControlPlaced dx s
      { controls := Function.update s.controls i ⟨x, s.y + gap, width, height⟩
        remaining, weight, y := s.y + gap + height } i gap where
  other := fun j hj => Function.update_of_ne hj _ s.controls
  top := by
    dsimp only
    rw [Function.update_self]
  bottom := by
    dsimp only
    rw [Function.update_self]
  pane := by
    dsimp only
    rw [Function.update_self]
    exact hpane
  rest := by
    dsimp only
    rw [Function.update_self]
    exact hrest
  width := by
    dsimp only
    rw [Function.update_self]
    exact hwidth
  close := by
    dsimp only
    rw [Function.update_self]
    exact hclose

/-- A control is placed, unless it is a pane and no weight is left. -/
theorem placeControl_placed (dx windowWidth frameWidth gap : ℤ)
    (hweight : IsPane i → s.weight ≠ 0) :
    ∃ s', placeControl .ok dx windowWidth frameWidth s i gap = .ok s' ∧
      ControlPlaced dx s s' i gap := by
  obtain ⟨x, width, hstretch, hlow, hclose⟩ :=
    stretch_ok dx windowWidth frameWidth (s.controls i) i
  rw [placeControl, CInt.ok_bind, shareOut]
  by_cases hpane : IsPane i
  · have hpane' : i = 0 ∨ i = 2 ∨ i = 4 := hpane
    rw [if_pos hpane']
    simp only [CInt.ok_bind, divInt, if_neg (hweight hpane), hstretch]
    exact ⟨_, rfl, placed_update (fun _ => ⟨rfl, rfl, rfl⟩) (fun h => absurd hpane h) hlow hclose⟩
  · have hpane' : ¬(i = 0 ∨ i = 2 ∨ i = 4) := hpane
    rw [if_neg hpane']
    simp only [CInt.ok_bind, hstretch]
    exact ⟨_, rfl, placed_update (fun h => absurd h hpane) (fun _ => ⟨rfl, rfl, rfl⟩) hlow hclose⟩

theorem ControlPlaced.gap_next {s' s'' : FitState} {j : Fin 6} {gap' : ℤ}
    (h : ControlPlaced dx s s' i gap) (h' : ControlPlaced dx s' s'' j gap') :
    (s''.controls j).y - (s'.controls i).y - (s'.controls i).height = gap' := by
  have hbottom := h.bottom
  rw [h'.top, h.top, hbottom]
  omega

/-- What two turns of the loop do, of a pane and of the control below it -/
structure PanePlaced (dx : ℤ) (s s' : FitState) (i j : Fin 6) (gap gap' : ℤ) : Prop where
  other : ∀ k, k ≠ i → k ≠ j → s'.controls k = s.controls k
  height : (s'.controls i).height = (s.remaining * (s.controls i).height).tdiv s.weight
  remaining : s'.remaining = s.remaining - (s'.controls i).height
  weight : s'.weight = s.weight - (s.controls i).height
  kept : (s'.controls j).height = (s.controls j).height
  width : ∀ k, k = i ∨ k = j → k < 5 → (s'.controls k).width = (s.controls k).width + dx
  close : ¬j < 5 → (s'.controls j).width = (s.controls j).width
  top : (s'.controls i).y = s.y + gap
  gap : (s'.controls j).y - (s'.controls i).y - (s'.controls i).height = gap'
  bottom : s'.y = (s'.controls j).y + (s'.controls j).height

/-- The two turns, where there is weight for the pane -/
theorem placeControls_pane {j : Fin 6} (hi : IsPane i) (hj : ¬IsPane j) (hweight : s.weight ≠ 0)
    (dx windowWidth frameWidth gap gap' : ℤ) :
    ∃ s', (∀ is gaps, placeControls .ok dx windowWidth frameWidth (i :: j :: is)
        (gap :: gap' :: gaps) s = placeControls .ok dx windowWidth frameWidth is gaps s') ∧
      PanePlaced dx s s' i j gap gap' := by
  obtain ⟨s₁, h₁, p⟩ :=
    placeControl_placed dx windowWidth frameWidth gap fun _ : IsPane i => hweight
  obtain ⟨s₂, h₂, q⟩ :=
    placeControl_placed (s := s₁) dx windowWidth frameWidth gap' fun h => absurd h hj
  have hij : i ≠ j := fun h => hj (h ▸ hi)
  have hpane : s₂.controls i = s₁.controls i := q.other i hij
  have hrest : s₁.controls j = s.controls j := p.other j hij.symm
  obtain ⟨hheight, hremaining, hweight'⟩ := p.pane hi
  obtain ⟨hkept, hremaining', hweight''⟩ := q.rest hj
  refine ⟨s₂, fun is gaps => ?_, ?_, ?_, ?_, ?_, ?_, ?_, ?_, ?_, ?_, ?_⟩
  · rw [placeControls, h₁, CInt.ok_bind, placeControls, h₂, CInt.ok_bind]
  · intro k hki hkj
    rw [q.other k hkj, p.other k hki]
  · rw [hpane, hheight]
  · rw [hpane, hremaining', hremaining]
  · rw [hweight'', hweight']
  · rw [hkept, hrest]
  · rintro k (rfl | rfl) hk
    · rw [hpane, p.width hk]
    · rw [q.width hk, hrest]
  · intro hlast
    rw [q.close hlast, hrest]
  · rw [hpane, p.top]
  · rw [hpane]
    exact p.gap_next q
  · rw [q.bottom, q.top]

/-- The loop stops at a pane for which there is no weight. -/
theorem placeControls_error {is : List (Fin 6)} {gaps : List ℤ} (hpane : IsPane i)
    (hweight : s.weight = 0) :
    placeControls .ok dx windowWidth frameWidth (i :: is) (gap :: gaps) s =
      .error .divideByZero := by
  have hpane' : i = 0 ∨ i = 2 ∨ i = 4 := hpane
  rw [placeControls, placeControl, CInt.ok_bind, shareOut, if_pos hpane']
  simp only [CInt.ok_bind, divInt, if_pos hweight]
  rfl

end

structure LaidOut (dx available total : ℤ) (controls controls' : LicenseControls) : Prop where
  panes : [(controls' 0).height, (controls' 2).height, (controls' 4).height] =
    runningShares available total
      [(controls 0).height, (controls 2).height, (controls 4).height]
  height : ∀ i, ¬IsPane i → (controls' i).height = (controls i).height
  width : ∀ i < 5, (controls' i).width = (controls i).width + dx
  close : (controls' 5).width = (controls 5).width
  top : (controls' 0).y = (controls 0).y
  gap : ∀ i : Fin 5,
    (controls' i.succ).y - (controls' i.castSucc).y - (controls' i.castSucc).height =
      (controls i.succ).y - (controls i.castSucc).y - (controls i.castSucc).height

section

variable {available total : ℤ} {controls : LicenseControls}

theorem gaps_eq (controls : LicenseControls) : [0, 1, 2, 3, 4, 5].mapM (gapAbove .ok controls) = .ok
    [(controls 0).y,
      (controls 1).y - (controls 0).y - (controls 0).height,
      (controls 2).y - (controls 1).y - (controls 1).height,
      (controls 3).y - (controls 2).y - (controls 2).height,
      (controls 4).y - (controls 3).y - (controls 3).height,
      (controls 5).y - (controls 4).y - (controls 4).height] := rfl

theorem fin_six : ∀ i : Fin 6, i = 0 ∨ i = 1 ∨ i = 2 ∨ i = 3 ∨ i = 4 ∨ i = 5 := by decide

theorem fin_five : ∀ i : Fin 5, i = 0 ∨ i = 1 ∨ i = 2 ∨ i = 3 ∨ i = 4 := by decide

theorem isPane_zero : IsPane 0 := .inl rfl

theorem isPane_two : IsPane 2 := .inr (.inl rfl)

theorem isPane_four : IsPane 4 := .inr (.inr rfl)

theorem not_isPane : ¬IsPane 1 ∧ ¬IsPane 3 ∧ ¬IsPane 5 := by
  unfold IsPane
  decide

/-- Where there is weight for each pane, all controls are placed. -/
theorem placeControls_laidOut {gaps : List ℤ} (dx windowWidth frameWidth : ℤ) (htotal : total ≠ 0)
    (hlower : total - (controls 0).height ≠ 0)
    (hlast : total - (controls 0).height - (controls 2).height ≠ 0)
    (hgaps : [0, 1, 2, 3, 4, 5].mapM (gapAbove .ok controls) = .ok gaps) :
    ∃ s, placeControls .ok dx windowWidth frameWidth [0, 1, 2, 3, 4, 5] gaps
        ⟨controls, available, total, 0⟩ = .ok s ∧
      LaidOut dx available total controls s.controls := by
  obtain rfl := Except.ok.inj ((gaps_eq controls).symm.trans hgaps)
  obtain ⟨hlabel₁, hlabel₃, hlabel₅⟩ := not_isPane
  -- one pane after the other, and what the controls ahead and the weight are then
  obtain ⟨s₁, h₁, p₁⟩ := placeControls_pane (s := ⟨controls, available, total, 0⟩) isPane_zero
    hlabel₁ htotal dx windowWidth frameWidth (controls 0).y
    ((controls 1).y - (controls 0).y - (controls 0).height)
  have c₂ : s₁.controls 2 = controls 2 := p₁.other 2 (by decide) (by decide)
  have c₃ : s₁.controls 3 = controls 3 := p₁.other 3 (by decide) (by decide)
  have w₁ : s₁.weight = total - (controls 0).height := p₁.weight
  obtain ⟨s₂, h₂, p₂⟩ := placeControls_pane isPane_two hlabel₃ (w₁ ▸ hlower) dx windowWidth
    frameWidth ((controls 2).y - (controls 1).y - (controls 1).height)
    ((controls 3).y - (controls 2).y - (controls 2).height)
  have c₄ : s₂.controls 4 = controls 4 := by
    rw [p₂.other 4 (by decide) (by decide), p₁.other 4 (by decide) (by decide)]
  have c₅ : s₂.controls 5 = controls 5 := by
    rw [p₂.other 5 (by decide) (by decide), p₁.other 5 (by decide) (by decide)]
  have w₂ : s₂.weight = total - (controls 0).height - (controls 2).height := by
    rw [p₂.weight, w₁, c₂]
  obtain ⟨s₃, h₃, p₃⟩ := placeControls_pane isPane_four hlabel₅ (w₂ ▸ hlast) dx windowWidth
    frameWidth ((controls 4).y - (controls 3).y - (controls 3).height)
    ((controls 5).y - (controls 4).y - (controls 4).height)
  -- a control stays as it was placed
  have e₃ : s₃.controls 3 = s₂.controls 3 := p₃.other 3 (by decide) (by decide)
  have e₂ : s₃.controls 2 = s₂.controls 2 := p₃.other 2 (by decide) (by decide)
  have e₁ : s₃.controls 1 = s₁.controls 1 := by
    rw [p₃.other 1 (by decide) (by decide), p₂.other 1 (by decide) (by decide)]
  have e₀ : s₃.controls 0 = s₁.controls 0 := by
    rw [p₃.other 0 (by decide) (by decide), p₂.other 0 (by decide) (by decide)]
  have r₁ : s₁.remaining = available - (s₃.controls 0).height := by
    rw [e₀]
    exact p₁.remaining
  have r₂ : s₂.remaining = available - (s₃.controls 0).height - (s₃.controls 2).height := by
    rw [p₂.remaining, r₁, e₂]
  have n₀ : (s₃.controls 0).height = (available * (controls 0).height).tdiv total := by
    rw [e₀]
    exact p₁.height
  have n₂ : (s₃.controls 2).height = ((available - (s₃.controls 0).height) *
      (controls 2).height).tdiv (total - (controls 0).height) := by
    rw [e₂, p₂.height, r₁, w₁, c₂]
  have n₄ : (s₃.controls 4).height =
      ((available - (s₃.controls 0).height - (s₃.controls 2).height) *
        (controls 4).height).tdiv (total - (controls 0).height - (controls 2).height) := by
    rw [p₃.height, r₂, w₂, c₄]
  refine ⟨s₃, ?_, ?_, ?_, ?_, ?_, ?_, ?_⟩
  · rw [h₁, h₂, h₃, placeControls]
    exact fun i is gap gaps h => nomatch h
  · simp only [runningShares]
    rw [← n₀, ← n₂, ← n₄]
  · intro i hi
    rcases fin_six i with rfl | rfl | rfl | rfl | rfl | rfl
    · exact absurd isPane_zero hi
    · rw [e₁, p₁.kept]
    · exact absurd isPane_two hi
    · rw [e₃, p₂.kept, c₃]
    · exact absurd isPane_four hi
    · rw [p₃.kept, c₅]
  · intro i hi
    rcases fin_six i with rfl | rfl | rfl | rfl | rfl | rfl
    · rw [e₀, p₁.width 0 (.inl rfl) hi]
    · rw [e₁, p₁.width 1 (.inr rfl) hi]
    · rw [e₂, p₂.width 2 (.inl rfl) hi, c₂]
    · rw [e₃, p₂.width 3 (.inr rfl) hi, c₃]
    · rw [p₃.width 4 (.inl rfl) hi, c₄]
    · exact absurd hi (by decide)
  · rw [p₃.close (by decide), c₅]
  · rw [e₀, p₁.top]
    exact zero_add _
  · intro i
    rcases fin_five i with rfl | rfl | rfl | rfl | rfl
    · rw [show (0 : Fin 5).castSucc = 0 from rfl, show (0 : Fin 5).succ = 1 from rfl, e₀, e₁]
      exact p₁.gap
    · rw [show (1 : Fin 5).castSucc = 1 from rfl, show (1 : Fin 5).succ = 2 from rfl, e₁, e₂,
        p₂.top, p₁.bottom]
      omega
    · rw [show (2 : Fin 5).castSucc = 2 from rfl, show (2 : Fin 5).succ = 3 from rfl, e₂, e₃]
      exact p₂.gap
    · rw [show (3 : Fin 5).castSucc = 3 from rfl, show (3 : Fin 5).succ = 4 from rfl, e₃,
        p₃.top, p₂.bottom]
      omega
    · exact p₃.gap

/-- Where the panes behind the notice weigh nothing, or the last one does, the loop divides by
zero. -/
theorem placeControls_divideByZero {gaps : List ℤ} (dx windowWidth frameWidth : ℤ)
    (htotal : total ≠ 0) (hweight : total - (controls 0).height = 0 ∨
      total - (controls 0).height - (controls 2).height = 0)
    (hgaps : [0, 1, 2, 3, 4, 5].mapM (gapAbove .ok controls) = .ok gaps) :
    placeControls .ok dx windowWidth frameWidth [0, 1, 2, 3, 4, 5] gaps
      ⟨controls, available, total, 0⟩ = .error .divideByZero := by
  obtain rfl := Except.ok.inj ((gaps_eq controls).symm.trans hgaps)
  obtain ⟨hlabel₁, hlabel₃, -⟩ := not_isPane
  obtain ⟨s₁, h₁, p₁⟩ := placeControls_pane (s := ⟨controls, available, total, 0⟩) isPane_zero
    hlabel₁ htotal dx windowWidth frameWidth (controls 0).y
    ((controls 1).y - (controls 0).y - (controls 0).height)
  have w₁ : s₁.weight = total - (controls 0).height := p₁.weight
  rw [h₁]
  by_cases hlower : total - (controls 0).height = 0
  · exact placeControls_error isPane_two (w₁.trans hlower)
  · obtain ⟨s₂, h₂, p₂⟩ := placeControls_pane isPane_two hlabel₃ (w₁ ▸ hlower) dx windowWidth
      frameWidth ((controls 2).y - (controls 1).y - (controls 1).height)
      ((controls 3).y - (controls 2).y - (controls 2).height)
    rw [h₂]
    refine placeControls_error isPane_four ?_
    rw [p₂.weight, w₁, p₁.other 2 (by decide) (by decide)]
    exact hweight.resolve_left hlower

end

/-! ## A dialog that is fitted -/

def fitWindow (work window : NawamLayoutRect) : NawamLayoutRect where
  x := max work.x (min window.x (work.x + work.width - fitWidth work window))
  y := max work.y (min window.y (work.y + work.height - fitHeight work window))
  width := fitWidth work window
  height := fitHeight work window

def paneTotal (controls : LicenseControls) : ℤ :=
  (controls 0).height + (controls 2).height + (controls 4).height

/-- What the panes have left, once the window has lost height -/
def paneRoom (work window : NawamLayoutRect) (controls : LicenseControls) : ℤ :=
  paneTotal controls + fitHeight work window - window.height

/-- The dialog stays as it is: the frame fills the monitor, the panes have no height, or too
little of it, or a control has no width. -/
def Refused (work window : NawamLayoutRect) (frameWidth frameHeight : ℤ)
    (controls : LicenseControls) : Prop :=
  (work.width ≤ frameWidth ∨ work.height ≤ frameHeight) ∨
  (paneTotal controls ≤ 0 ∨ paneRoom work window controls < 3) ∨
  fitWidth work window - frameWidth < (controls 5).width ∨
  ∃ i ∈ [0, 1, 2, 3, 4], (controls i).width + (fitWidth work window - window.width) ≤ 0

section

variable {work window : NawamLayoutRect} {frameWidth frameHeight : ℤ} {controls : LicenseControls}

theorem widthsFit_ok (dx : ℤ) (controls : LicenseControls) (is : List (Fin 6)) :
    widthsFit .ok dx controls is = .ok (decide (∀ i ∈ is, 0 < (controls i).width + dx)) := by
  induction is with
  | nil => rfl
  | cons i is ih =>
      rw [widthsFit, CInt.ok_bind, ih]
      split
      · next hi =>
          rw [decide_eq_false]
          exact fun h => absurd (h i (by simp)) hi.not_gt
      · next hi =>
          have hi' : 0 < (controls i).width + dx := not_le.mp hi
          simp only [List.forall_mem_cons, hi', true_and]

theorem moveInto_ok (start size extent position : ℤ) :
    moveInto .ok start size extent position =
      .ok (max start (min position (start + size - extent))) := by
  have hmin (last : ℤ) : (if last < position then last else position) = min position last := by
    split <;> omega
  have hmax (p : ℤ) : (if p < start then start else p) = max start p := by
    split <;> omega
  simp only [moveInto, CInt.ok_bind, hmin, hmax]

theorem fitted_eq (work window : NawamLayoutRect) (frameWidth frameHeight : ℤ)
    (controls : LicenseControls) :
    nawamFitLicenseLayout .ok work window frameWidth frameHeight controls =
      if work.width ≤ frameWidth ∨ work.height ≤ frameHeight then .ok (false, window, controls)
      else if paneTotal controls ≤ 0 ∨ paneRoom work window controls < 3 then
        .ok (false, window, controls)
      else if fitWidth work window - frameWidth < (controls 5).width then
        .ok (false, window, controls)
      else if ¬∀ i ∈ [0, 1, 2, 3, 4],
          0 < (controls i).width + (fitWidth work window - window.width) then
        .ok (false, window, controls)
      else (do
        let gaps ← [0, 1, 2, 3, 4, 5].mapM (gapAbove .ok controls)
        let s ← placeControls .ok (fitWidth work window - window.width) window.width frameWidth
          [0, 1, 2, 3, 4, 5] gaps ⟨controls, paneRoom work window controls, paneTotal controls, 0⟩
        .ok (true, fitWindow work window, s.controls)) := by
  simp only [nawamFitLicenseLayout, fitWidth_eq, fitHeight_eq, CInt.ok_bind, widthsFit_ok,
    moveInto_ok, decide_eq_true_eq]
  rfl

theorem fitted_refused (h : Refused work window frameWidth frameHeight controls) :
    nawamFitLicenseLayout .ok work window frameWidth frameHeight controls =
      .ok (false, window, controls) := by
  rw [fitted_eq]
  rcases h with h | h | h | ⟨i, hi, h⟩
  · exact if_pos h
  · rw [if_pos h, ite_self]
  · rw [if_pos h, ite_self, ite_self]
  · have hwidth : ¬∀ i ∈ [0, 1, 2, 3, 4],
        0 < (controls i).width + (fitWidth work window - window.width) :=
      fun hall => absurd (hall i hi) h.not_gt
    rw [if_pos hwidth, ite_self, ite_self, ite_self]

theorem fitted_runs (h : ¬Refused work window frameWidth frameHeight controls) :
    ∃ gaps, [0, 1, 2, 3, 4, 5].mapM (gapAbove .ok controls) = .ok gaps ∧
      nawamFitLicenseLayout .ok work window frameWidth frameHeight controls = (do
        let s ← placeControls .ok (fitWidth work window - window.width) window.width frameWidth
          [0, 1, 2, 3, 4, 5] gaps ⟨controls, paneRoom work window controls, paneTotal controls, 0⟩
        .ok (true, fitWindow work window, s.controls)) := by
  simp only [Refused, not_or, not_exists, not_and, not_le, not_lt] at h
  obtain ⟨hframe, hroom, hclose, hwidth⟩ := h
  refine ⟨_, gaps_eq controls, ?_⟩
  rw [fitted_eq, if_neg (by omega), if_neg (by omega), if_neg (by omega),
    if_neg (not_not.mpr hwidth), gaps_eq, CInt.ok_bind]

end

/-! ## What the dialog looks like -/

/-- The window lies on the monitor, and its controls are as they were, but for the heights of the
panes, which take up what the window has lost, and the widths. -/
structure Fitted (work window window' : NawamLayoutRect) (controls controls' : LicenseControls) :
    Prop where
  inside_x : work.x ≤ window'.x ∧ window'.x + window'.width ≤ work.x + work.width
  inside_y : work.y ≤ window'.y ∧ window'.y + window'.height ≤ work.y + work.height
  panes : paneTotal controls' = paneTotal controls + (window'.height - window.height)
  height : ∀ i, ¬IsPane i → (controls' i).height = (controls i).height
  close : (controls' 5).width = (controls 5).width
  top : (controls' 0).y = (controls 0).y
  gap : ∀ i : Fin 5,
    (controls' i.succ).y - (controls' i.castSucc).y - (controls' i.castSucc).height =
      (controls i.succ).y - (controls i.castSucc).y - (controls i.castSucc).height
  width : ∀ i < 5, (controls' i).width = (controls i).width + (window'.width - window.width)

section

variable {dx available : ℤ} {work window : NawamLayoutRect} {frameWidth frameHeight : ℤ}
  {controls controls' : LicenseControls}

/-- The last pane takes what remains, so that no pixel is lost. -/
theorem LaidOut.paneTotal_eq (h : LaidOut dx available (paneTotal controls) controls controls')
    (hgpl : (controls 4).height ≠ 0) : paneTotal controls' = available := by
  have hweight : paneTotal controls =
      [(controls 0).height, (controls 2).height].sum + (controls 4).height := by
    simp only [paneTotal, List.sum_cons, List.sum_nil, add_zero]
  have hsum : paneTotal controls' =
      [(controls' 0).height, (controls' 2).height, (controls' 4).height].sum := by
    simp only [paneTotal, List.sum_cons, List.sum_nil, add_zero, add_assoc]
  rw [hsum, h.panes, hweight]
  exact sum_runningShares _ hgpl _

theorem fitWindow_inside (work window : NawamLayoutRect) :
    (work.x ≤ (fitWindow work window).x ∧
      (fitWindow work window).x + (fitWindow work window).width ≤ work.x + work.width) ∧
    (work.y ≤ (fitWindow work window).y ∧
      (fitWindow work window).y + (fitWindow work window).height ≤ work.y + work.height) := by
  have hwidth : fitWidth work window ≤ work.width := min_le_right ..
  have hheight : fitHeight work window ≤ work.height := min_le_right ..
  dsimp only [fitWindow]
  omega

theorem LaidOut.fitted
    (h : LaidOut (fitWidth work window - window.width) (paneRoom work window controls)
      (paneTotal controls) controls controls') (hgpl : (controls 4).height ≠ 0) :
    Fitted work window (fitWindow work window) controls controls' where
  inside_x := (fitWindow_inside work window).1
  inside_y := (fitWindow_inside work window).2
  panes := by
    rw [h.paneTotal_eq hgpl, paneRoom]
    exact add_sub_assoc ..
  height := h.height
  close := h.close
  top := h.top
  gap := h.gap
  width := h.width

/-- A dialog that is not refused is laid out, where there is weight for each pane. -/
theorem fitted_laidOut (hrefused : ¬Refused work window frameWidth frameHeight controls)
    (hlower : (controls 2).height + (controls 4).height ≠ 0) (hlast : (controls 4).height ≠ 0) :
    ∃ controls', nawamFitLicenseLayout .ok work window frameWidth frameHeight controls =
        .ok (true, fitWindow work window, controls') ∧
      LaidOut (fitWidth work window - window.width) (paneRoom work window controls)
        (paneTotal controls) controls controls' := by
  obtain ⟨gaps, hgaps, hrun⟩ := fitted_runs hrefused
  have htotal : paneTotal controls ≠ 0 := fun h => hrefused (.inr (.inl (.inl h.le)))
  obtain ⟨s, hs, hlaid⟩ := placeControls_laidOut _ _ _ htotal (by rw [paneTotal]; omega)
    (by rw [paneTotal]; omega) hgaps
  exact ⟨s.controls, by rw [hrun, hs, CInt.ok_bind], hlaid⟩

/-- The dialog is fitted or stays as it is. -/
theorem nawamFitLicenseLayout_fitted (hpanes : ∀ i, IsPane i → 0 < (controls i).height)
    (hint : nawamFitLicenseLayout checked work window frameWidth frameHeight controls ≠
      .error .overflow) :
    ∃ fits window' controls',
      nawamFitLicenseLayout checked work window frameWidth frameHeight controls =
        .ok (fits, window', controls') ∧
      (fits = true → Fitted work window window' controls controls') ∧
      (fits = false → window' = window ∧ controls' = controls) := by
  rw [(nawamFitLicenseLayout_agrees work window frameWidth frameHeight controls).eq_of_ne hint]
  by_cases hrefused : Refused work window frameWidth frameHeight controls
  · exact ⟨false, window, controls, fitted_refused hrefused, (fun h => nomatch h),
      fun _ => ⟨rfl, rfl⟩⟩
  · have hcredits := hpanes 2 isPane_two
    have hgpl := hpanes 4 isPane_four
    obtain ⟨controls', hrun, hlaid⟩ := fitted_laidOut hrefused (by omega) hgpl.ne'
    exact ⟨true, _, controls', hrun, fun _ => hlaid.fitted hgpl.ne', (fun h => nomatch h)⟩

/-- The controls of the dialog at 96 DPI -/
def licenseTemplate : LicenseControls :=
  ![⟨14, 14, 912, 208⟩, ⟨14, 238, 912, 20⟩, ⟨14, 264, 912, 164⟩, ⟨14, 446, 912, 20⟩,
    ⟨14, 472, 912, 230⟩, ⟨826, 724, 100, 32⟩]

theorem licenseTemplate_pane (i : Fin 6) (hi : IsPane i) : 0 < (licenseTemplate i).height := by
  rcases hi with rfl | rfl | rfl <;> decide

theorem nawamFitLicenseLayout_fitted_at_monitor :
    (nawamFitLicenseLayout checked ⟨0, 0, 1280, 680⟩ ⟨-2500, -900, 956, 804⟩ 16 40
      licenseTemplate).toOption.map Prod.fst = some true ∧
    ∃ fits window' controls',
      nawamFitLicenseLayout checked ⟨0, 0, 1280, 680⟩ ⟨-2500, -900, 956, 804⟩ 16 40
        licenseTemplate = .ok (fits, window', controls') ∧
      (fits = true → Fitted ⟨0, 0, 1280, 680⟩ ⟨-2500, -900, 956, 804⟩ window' licenseTemplate
        controls') ∧
      (fits = false → window' = ⟨-2500, -900, 956, 804⟩ ∧ controls' = licenseTemplate) :=
  ⟨by decide +kernel, nawamFitLicenseLayout_fitted licenseTemplate_pane
    (CInt.ne_error (by decide +kernel))⟩

/-- On a narrow monitor the labels are made narrower along with the panes. -/
theorem licenseTemplate_label_narrowed :
    ∃ window' controls',
      nawamFitLicenseLayout checked ⟨0, 0, 800, 680⟩ ⟨0, 0, 956, 804⟩ 16 40 licenseTemplate =
        .ok (true, window', controls') ∧
      (licenseTemplate 1).width = 912 ∧ (controls' 1).width = 756 :=
  ⟨_, _, rfl, by decide +kernel, by decide +kernel⟩

end

/-! ## The panes stay visible -/

/-- A result of the function: it has not divided by zero, and where it has fitted the dialog, each
pane has a pixel. -/
def PanesVisible (result : CInt (Bool × NawamLayoutRect × LicenseControls)) : Prop :=
  result ≠ .error .divideByZero ∧
  ∀ window' controls', result = .ok (true, window', controls') →
    ∀ i, IsPane i → 1 ≤ (controls' i).height

/-- The notice's share of the room is a pixel, and so is the share of the credits in what the
notice leaves. -/
structure RoomForPanes (work window : NawamLayoutRect) (controls : LicenseControls) : Prop where
  credits_pos : 0 < (controls 2).height
  gpl_pos : 0 < (controls 4).height
  notice : paneTotal controls ≤ paneRoom work window controls * (controls 0).height
  credits : ((controls 4).height + (controls 2).height - 1) / (controls 2).height *
      paneTotal controls <
    paneRoom work window controls * ((controls 2).height + (controls 4).height)

section

variable {dx available : ℤ} {work window : NawamLayoutRect} {frameWidth frameHeight : ℤ}
  {controls controls' : LicenseControls}

theorem fitted_divideByZero (hrefused : ¬Refused work window frameWidth frameHeight controls)
    (hweight : (controls 2).height + (controls 4).height = 0 ∨ (controls 4).height = 0) :
    nawamFitLicenseLayout .ok work window frameWidth frameHeight controls =
      .error .divideByZero := by
  obtain ⟨gaps, hgaps, hrun⟩ := fitted_runs hrefused
  have htotal : paneTotal controls ≠ 0 := fun h => hrefused (.inr (.inl (.inl h.le)))
  rw [hrun, placeControls_divideByZero _ _ _ htotal (by rw [paneTotal]; omega) hgaps,
    CInt.error_bind]

/-- When the running shares of the panes have a pixel each -/
theorem LaidOut.visible_iff (h : LaidOut dx available (paneTotal controls) controls controls')
    (hpanes : ∀ i, IsPane i → 0 ≤ (controls i).height) (hgpl : 0 < (controls 4).height)
    (hroom : 0 < available) :
    (∀ i, IsPane i → 1 ≤ (controls' i).height) ↔
      0 < (controls 2).height ∧ paneTotal controls ≤ available * (controls 0).height ∧
      ((controls 4).height + (controls 2).height - 1) / (controls 2).height *
        paneTotal controls < available * ((controls 2).height + (controls 4).height) := by
  have h₀ := hpanes 0 isPane_zero
  have h₂ := hpanes 2 isPane_two
  have hsum : paneTotal controls =
      (controls 0).height + (controls 2).height + (controls 4).height := rfl
  have htotal : 0 < paneTotal controls := by omega
  have hlower : paneTotal controls - (controls 0).height =
      (controls 2).height + (controls 4).height := by
    rw [paneTotal]
    omega
  have hshares := h.panes
  simp only [runningShares, List.cons.injEq, and_true, hlower, add_sub_cancel_left,
    Int.mul_tdiv_cancel _ hgpl.ne'] at hshares
  obtain ⟨n₀, n₂, n₄⟩ := hshares
  obtain ⟨-, hshare⟩ := share_bounds hroom.le h₀ (by rw [paneTotal]; omega) htotal
  have hrest := sub_nonneg.mpr hshare
  have hnotice : 1 ≤ (controls' 0).height ↔
      paneTotal controls ≤ available * (controls 0).height := by
    rw [n₀]
    exact one_le_share_iff hroom.le h₀ htotal
  have hcredits : 1 ≤ (controls' 2).height ↔ (controls 2).height + (controls 4).height ≤
      (available - (available * (controls 0).height).tdiv (paneTotal controls)) *
        (controls 2).height := by
    rw [n₂]
    exact one_le_share_iff hrest h₂ (by omega)
  constructor
  · intro hall
    have hle := hcredits.mp (hall 2 isPane_two)
    have hpos : 0 < (controls 2).height := by
      refine h₂.lt_of_ne' fun hzero => ?_
      rw [hzero, mul_zero] at hle
      omega
    refine ⟨hpos, hnotice.mp (hall 0 isPane_zero), ?_⟩
    exact (one_le_second_share_iff hroom.le h₀ hpos hsum htotal).mp hle
  · rintro ⟨hpos, hroom₀, hroom₂⟩ i hi
    have hle := (one_le_second_share_iff hroom.le h₀ hpos hsum htotal).mpr hroom₂
    rcases hi with rfl | rfl | rfl
    · exact hnotice.mpr hroom₀
    · exact hcredits.mpr hle
    · -- the credits have left a pixel, for the GPL has weight
      have hrest' : 0 < available -
          (available * (controls 0).height).tdiv (paneTotal controls) := by
        refine hrest.lt_of_ne' fun hzero => ?_
        rw [hzero, zero_mul] at hle
        omega
      have hlt := share_lt hrest' h₂ (show (controls 2).height <
        (controls 2).height + (controls 4).height by omega)
      rw [n₄]
      omega

/-- The panes stay visible if and only if the dialog stays as it is or there is room for them. -/
theorem nawamFitLicenseLayout_panesVisible_iff (work window : NawamLayoutRect)
    (frameWidth frameHeight : ℤ) (controls : LicenseControls)
    (hpanes : ∀ i, IsPane i → 0 ≤ (controls i).height)
    (hint : nawamFitLicenseLayout checked work window frameWidth frameHeight controls ≠
      .error .overflow) :
    PanesVisible (nawamFitLicenseLayout checked work window frameWidth frameHeight controls) ↔
      Refused work window frameWidth frameHeight controls ∨
      RoomForPanes work window controls := by
  rw [(nawamFitLicenseLayout_agrees work window frameWidth frameHeight controls).eq_of_ne hint]
  have h₂ := hpanes 2 isPane_two
  have h₄ := hpanes 4 isPane_four
  by_cases hrefused : Refused work window frameWidth frameHeight controls
  · rw [fitted_refused hrefused]
    refine ⟨fun _ => .inl hrefused, fun _ => ⟨fun h => (nomatch h), ?_⟩⟩
    rintro window' controls' ⟨⟩
  by_cases hgpl : (controls 4).height = 0
  · rw [fitted_divideByZero hrefused (.inr hgpl)]
    refine ⟨fun h => absurd rfl h.1, ?_⟩
    rintro (h | h)
    · exact absurd h hrefused
    · exact absurd hgpl h.gpl_pos.ne'
  obtain ⟨controls', hrun, hlaid⟩ := fitted_laidOut hrefused (by omega) hgpl
  have hpos : 0 < (controls 4).height := h₄.lt_of_ne' hgpl
  have hroom : 0 < paneRoom work window controls := by
    have hguard : ¬paneRoom work window controls < 3 :=
      fun h => hrefused (.inr (.inl (.inr h)))
    omega
  have hvisible := hlaid.visible_iff hpanes hpos hroom
  rw [hrun]
  constructor
  · rintro ⟨-, h⟩
    obtain ⟨hcredits, hnotice, hroom'⟩ := hvisible.mp (h _ _ rfl)
    exact .inr ⟨hcredits, hpos, hnotice, hroom'⟩
  · rintro (h | h)
    · exact absurd h hrefused
    · refine ⟨fun herror => (nomatch herror), ?_⟩
      rintro window' controls' ⟨⟩
      exact hvisible.mpr ⟨h.credits_pos, h.notice, h.credits⟩

theorem nawamFitLicenseLayout_panesVisible_at_monitor :
    PanesVisible (nawamFitLicenseLayout checked ⟨0, 0, 1280, 680⟩ ⟨-2500, -900, 956, 804⟩ 16 40
      licenseTemplate) :=
  (nawamFitLicenseLayout_panesVisible_iff _ _ _ _ licenseTemplate
    (fun i hi => (licenseTemplate_pane i hi).le) (CInt.ne_error (by decide +kernel))).mpr
      (.inr ⟨by decide +kernel, by decide +kernel, by decide +kernel, by decide +kernel⟩)

/-- A dialog without credits and without the GPL -/
def noticeOnly : LicenseControls :=
  ![⟨0, 0, 40, 5⟩, ⟨0, 5, 40, 5⟩, ⟨0, 10, 40, 0⟩, ⟨0, 10, 40, 5⟩, ⟨0, 15, 40, 0⟩, ⟨0, 15, 40, 5⟩]

/-- Where three pixels are left, the credits get none, and where only the notice has a height, the
shares divide by zero. -/
theorem licenseTemplate_credits_hidden :
    (((∀ i, IsPane i → 0 ≤ (licenseTemplate i).height) ∧ 0 < paneTotal licenseTemplate) ∧
      ¬PanesVisible (nawamFitLicenseLayout checked ⟨0, 0, 1280, 205⟩ ⟨0, 0, 956, 804⟩ 16 40
        licenseTemplate)) ∧
    ((∀ i, IsPane i → 0 ≤ (noticeOnly i).height) ∧ 0 < paneTotal noticeOnly) ∧
      ¬PanesVisible (nawamFitLicenseLayout checked ⟨0, 0, 100, 100⟩ ⟨0, 0, 50, 50⟩ 2 2
        noticeOnly) := by
  have hnotice (i : Fin 6) (hi : IsPane i) : 0 ≤ (noticeOnly i).height := by
    rcases hi with rfl | rfl | rfl <;> decide
  refine ⟨⟨⟨fun i hi => (licenseTemplate_pane i hi).le, by decide⟩, fun h => ?_⟩,
    ⟨hnotice, by decide⟩, fun h => h.1 rfl⟩
  exact absurd (h.2 _ _ rfl 2 isPane_two) (by decide +kernel)

end

end Nawam
