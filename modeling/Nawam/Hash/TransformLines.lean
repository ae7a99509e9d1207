import Nawam.Base.Unrolled
import Nawam.Hash.Streaming
import Mathlib.Data.Fin.VecNotation
import Mathlib.Tactic.FinCases

/-!
# The lines of the transforms

The block transforms of `hash.c` as they stand there: a line for each step, with
the registers in place and the names of each line one place further
(`linesTransform`). They do what the steps of `Transforms` do, which return the
registers renamed, because after the last line the names are back in place.
-/

namespace Nawam

/-! ## Source -/

/-- `SHA1STEP` on the registers as it names them, with `F1` to `F4`, `K1` to
`K4`, and `x[i]` or `M(i)` for the line `i`. -/
def sha1Line (i : ℕ) :
    (Fin 5 → UInt32) × List UInt32 → (Fin 5 → UInt32) × List UInt32
  | (r, x) =>
      let x := sha1Word x i
      let (f, k) := sha1Round i
      let r := Function.update r 4
        (r 4 + (rol32 (r 0) 5 + f (r 1) (r 2) (r 3) + k + x.getD (i % 16) 0))
      let r := Function.update r 1 (rol32 (r 1) 30)
      (r, x)

/-- `R` of SHA-256 on the registers as it names them. -/
def sha256Line (i : ℕ) :
    (Fin 8 → UInt32) × List UInt32 → (Fin 8 → UInt32) × List UInt32
  | (r, x) =>
      let x := Sha256.blk x i
      let r := Function.update r 7 (r 7 + (Sha256.S1 (r 4) + ch (r 4) (r 5) (r 6)
        + k256.getD i 0 + x.getD (i % 16) 0))
      let r := Function.update r 3 (r 3 + r 7)
      let r := Function.update r 7 (r 7 + (Sha256.S0 (r 0) + ma (r 0) (r 1) (r 2)))
      (r, x)

/-- `R` of SHA-512 on the registers as it names them. -/
def sha512Line (i : ℕ) :
    (Fin 8 → UInt64) × List UInt64 → (Fin 8 → UInt64) × List UInt64
  | (r, W) =>
      let r := Function.update r 7 (r 7 + (Sha512.S1 (r 4) + ch (r 4) (r 5) (r 6)
        + k512.getD i 0 + W.getD i 0))
      let r := Function.update r 3 (r 3 + r 7)
      let r := Function.update r 7 (r 7 + (Sha512.S0 (r 0) + ma (r 0) (r 1) (r 2)))
      (r, W)

/-- `MD5STEP` on the registers as it names them. -/
def md5Line (i : ℕ) :
    (Fin 4 → UInt32) × List UInt32 → (Fin 4 → UInt32) × List UInt32
  | (r, x) =>
      let (j, k, s) := md5Steps.getD i (0, 0, 0)
      let r := Function.update r 0
        (r 0 + (md5Round i (r 1) (r 2) (r 3) + (x.getD j 0 + k)))
      let r := Function.update r 0 (rol32 (r 0) s)
      let r := Function.update r 0 (r 0 + r 1)
      (r, x)

/-- The `m` lines of a transform, one after the other. -/
def runLines {w : Type} {n : ℕ} [NeZero n]
    (line : ℕ → (Fin n → w) × List w → (Fin n → w) × List w) (m : ℕ)
    (r : Fin n → w) (x : List w) : Fin n → w :=
  ((List.range m).foldl (fun s i => inPlace (line i) i s) (r, x)).1

/-- The transforms, the registers in place. -/
def linesTransform : HashType → Transform
  | .md5, state, data =>
      let x := (pieces 4 16 data).map fun bytes => UInt32.ofNat (leValue bytes)
      let s := lowHalves state
      chain state (List.ofFn (runLines md5Line 64 (fun i => s.getD i 0) x))
  | .sha1, state, data =>
      let x := (pieces 4 16 data).map readSwap32
      let s := lowHalves state
      chain state (List.ofFn (runLines sha1Line 80 (fun i => s.getD i 0) x))
  | .sha256, state, data =>
      let x := (pieces 4 16 data).map readSwap32
      let s := lowHalves state
      chain state (List.ofFn (runLines sha256Line 64 (fun i => s.getD i 0) x))
  | .sha512, state, data =>
      let W := (List.range 80).foldl (Sha512.schedule data) []
      List.zipWith (· + ·) state
        (List.ofFn (runLines sha512Line 80 (fun i => state.getD i 0) W))

/-! ## The lines are the steps -/

/-- Lines with rotated names, against steps that rotate what they return: what
`view` shows of the registers of a step is what a line sees. -/
theorem runLines_eq {w ρ : Type} {n : ℕ} [NeZero n]
    {line : ℕ → (Fin n → w) × List w → (Fin n → w) × List w}
    {step : ρ × List w → ℕ → ρ × List w} {view : ρ → Fin n → w}
    (hstep : ∀ s i, (rotated 1 (line i (view s.1, s.2)).1,
      (line i (view s.1, s.2)).2) = (view (step s i).1, (step s i).2))
    {m : ℕ} (hm : n ∣ m) (regs : ρ) (x : List w) :
    runLines line m (view regs) x
      = view ((List.range m).foldl step (regs, x)).1 := by
  have hfold := rotated_foldl line (view regs) x m
  simp only [rotated_of_dvd hm] at hfold
  have hhom : ∀ (is : List ℕ) (s : ρ × List w),
      is.foldl (fun s i => (rotated 1 (line i s).1, (line i s).2)) (view s.1, s.2)
        = (view (is.foldl step s).1, (is.foldl step s).2) := by
    intro is
    induction is with
    | nil => exact fun _ => rfl
    | cons i is ih =>
        intro s
        rw [List.foldl_cons, List.foldl_cons, ← ih (step s i), ← hstep]
  exact congrArg Prod.fst (hfold.trans (hhom (List.range m) (regs, x)))

theorem foldl_fixed {ρ κ ι : Type} (g : κ → ρ → ι → ρ) (x : κ) : ∀ (is : List ι)
    (a : ρ), is.foldl (fun s i => (g s.2 s.1 i, s.2)) (a, x)
      = (is.foldl (g x) a, x)
  | [], _ => rfl
  | i :: is, a => foldl_fixed g x is (g x a i)

theorem runLines_fixed {w ρ : Type} {n : ℕ} [NeZero n]
    {line : ℕ → (Fin n → w) × List w → (Fin n → w) × List w}
    {step : List w → ρ → ℕ → ρ} {view : ρ → Fin n → w}
    (hstep : ∀ (s : ρ × List w) (i : ℕ), (rotated 1 (line i (view s.1, s.2)).1,
      (line i (view s.1, s.2)).2) = (view (step s.2 s.1 i), s.2))
    {m : ℕ} (hm : n ∣ m) (regs : ρ) (x : List w) :
    runLines line m (view regs) x = view ((List.range m).foldl (step x) regs) := by
  rw [@runLines_eq w ρ n _ line (fun s i => (step s.2 s.1 i, s.2)) view hstep m hm,
    foldl_fixed]

/-- The registers `a`, `b` and so on, as a file -/
def sha1View : Sha1Registers → Fin 5 → UInt32
  | (a, b, c, d, e) => ![a, b, c, d, e]

def sha2View {w : Type} : Sha2Registers w → Fin 8 → w
  | (a, b, c, d, e, f, g, h) => ![a, b, c, d, e, f, g, h]

def md5View : UInt32 × UInt32 × UInt32 × UInt32 → Fin 4 → UInt32
  | (a, b, c, d) => ![a, b, c, d]

theorem sha1Line_step (s : Sha1Registers × List UInt32) (i : ℕ) :
    (rotated 1 (sha1Line i (sha1View s.1, s.2)).1,
        (sha1Line i (sha1View s.1, s.2)).2)
      = (sha1View (sha1Step s i).1, (sha1Step s i).2) := by
  obtain ⟨⟨a, b, c, d, e⟩, x⟩ := s
  refine Prod.ext (funext fun k => ?_) rfl
  fin_cases k <;> rfl

theorem sha256Line_step (s : Sha2Registers UInt32 × List UInt32) (i : ℕ) :
    (rotated 1 (sha256Line i (sha2View s.1, s.2)).1,
        (sha256Line i (sha2View s.1, s.2)).2)
      = (sha2View (Sha256.r s i).1, (Sha256.r s i).2) := by
  obtain ⟨⟨a, b, c, d, e, f, g, h⟩, x⟩ := s
  refine Prod.ext (funext fun k => ?_) rfl
  fin_cases k <;> rfl

theorem sha512Line_step (s : Sha2Registers UInt64 × List UInt64) (i : ℕ) :
    (rotated 1 (sha512Line i (sha2View s.1, s.2)).1,
        (sha512Line i (sha2View s.1, s.2)).2)
      = (sha2View (Sha512.r s.2 s.1 i), s.2) := by
  obtain ⟨⟨a, b, c, d, e, f, g, h⟩, x⟩ := s
  refine Prod.ext (funext fun k => ?_) rfl
  fin_cases k <;> rfl

theorem md5Line_step (s : (UInt32 × UInt32 × UInt32 × UInt32) × List UInt32)
    (i : ℕ) :
    (rotated 1 (md5Line i (md5View s.1, s.2)).1,
        (md5Line i (md5View s.1, s.2)).2)
      = (md5View (md5Step s.2 s.1 (md5Steps.getD i (0, 0, 0), i)), s.2) := by
  obtain ⟨⟨a, b, c, d⟩, x⟩ := s
  refine Prod.ext (funext fun k => ?_) rfl
  fin_cases k <;> rfl

theorem md5Steps_zipIdx :
    md5Steps.zipIdx = (List.range 64).map fun i => (md5Steps.getD i (0, 0, 0), i) := by
  decide

theorem sha1View_getD (s : List UInt32) : (fun i : Fin 5 => s.getD i 0)
    = sha1View (s.getD 0 0, s.getD 1 0, s.getD 2 0, s.getD 3 0, s.getD 4 0) := by
  funext i
  fin_cases i <;> rfl

theorem sha2View_getD {w : Type} (s : List w) (zero : w) :
    (fun i : Fin 8 => s.getD i zero)
      = sha2View (s.getD 0 zero, s.getD 1 zero, s.getD 2 zero, s.getD 3 zero,
          s.getD 4 zero, s.getD 5 zero, s.getD 6 zero, s.getD 7 zero) := by
  funext i
  fin_cases i <;> rfl

theorem md5View_getD (s : List UInt32) : (fun i : Fin 4 => s.getD i 0)
    = md5View (s.getD 0 0, s.getD 1 0, s.getD 2 0, s.getD 3 0) := by
  funext i
  fin_cases i <;> rfl

/-- **The lines of the source** are the transforms. -/
theorem linesTransform_eq (type : HashType) (state : List UInt64)
    (data : List UInt8) :
    linesTransform type state data = type.transform state data := by
  cases type with
  | sha1 =>
      simp only [linesTransform]
      rw [sha1View_getD, runLines_eq sha1Line_step (by decide)]
      rfl
  | sha256 =>
      simp only [linesTransform]
      rw [sha2View_getD, runLines_eq sha256Line_step (by decide)]
      rfl
  | sha512 =>
      simp only [linesTransform]
      rw [sha2View_getD, runLines_fixed sha512Line_step (by decide)]
      rfl
  | md5 =>
      simp only [linesTransform]
      rw [md5View_getD, @runLines_fixed _ _ _ _ md5Line
        (fun x s i => md5Step x s (md5Steps.getD i (0, 0, 0), i)) md5View
        md5Line_step _ (by decide)]
      show _ = chain state (md5Rounds (lowHalves state) data)
      rw [md5Rounds, md5Steps_zipIdx, List.foldl_map]
      rfl

end Nawam
