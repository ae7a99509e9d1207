import Nawam.Base.Index
import Mathlib.Data.Fin.Basic
import Mathlib.Algebra.Group.Fin.Basic
import Mathlib.Data.List.GetD

/-!
# Unrolled loops

Two things that hand-written loops do instead of moving data. Lines that differ
in the names of their registers only, each name one place further than in the
line before: what a line works on is the register file as it sees it
(`rotated`), and running the lines in place is folding their macro over this
view (`rotated_foldl`). And a table of which only the last `n` entries are
kept, each in the place of the one it pushes out (`Window`).
-/

namespace Nawam

/-- Two loops over the same range whose states stay related. -/
theorem foldl_range_rel {α β : Type} {f : α → ℕ → α} {g : β → ℕ → β}
    {R : ℕ → α → β → Prop} {a : α} {b : β} (h : R 0 a b) : ∀ {n : ℕ},
    (∀ i < n, ∀ a b, R i a b → R (i + 1) (f a i) (g b i)) →
    R n ((List.range n).foldl f a) ((List.range n).foldl g b)
  | 0, _ => h
  | n + 1, hstep => by
      simp only [List.range_succ, List.foldl_append, List.foldl_cons,
        List.foldl_nil]
      exact hstep n (Nat.lt_succ_self n) _ _
        (foldl_range_rel h fun i hi => hstep i (hi.trans (Nat.lt_succ_self n)))

/-! ## Rotated names -/

section

variable {w σ : Type} {n : ℕ} [NeZero n]

/-- The registers in the order in which line `i` names them: its first one is
the one that line `i - 1` named last. -/
def rotated (i : ℕ) (r : Fin n → w) : Fin n → w := fun k => r (k - Fin.ofNat n i)

/-- A macro on the registers as line `i` names them. -/
def inPlace (f : (Fin n → w) × σ → (Fin n → w) × σ) (i : ℕ) :
    (Fin n → w) × σ → (Fin n → w) × σ
  | (r, x) =>
      let (view, x) := f (rotated i r, x)
      (fun j => view (j + Fin.ofNat n i), x)

@[simp] theorem rotated_zero (r : Fin n → w) : rotated 0 r = r := by
  funext k
  show r (k - 0) = r k
  rw [sub_zero]

theorem rotated_add (i j : ℕ) (r : Fin n → w) :
    rotated i (rotated j r) = rotated (i + j) r := by
  funext k
  have hadd : Fin.ofNat n (i + j) = Fin.ofNat n i + Fin.ofNat n j := by
    apply Fin.ext
    exact Nat.add_mod i j n
  show r (k - Fin.ofNat n i - Fin.ofNat n j) = r (k - Fin.ofNat n (i + j))
  rw [hadd, sub_sub]

/-- After a round of names they are where they were. -/
theorem rotated_of_dvd {i : ℕ} (hi : n ∣ i) (r : Fin n → w) : rotated i r = r := by
  have hzero : Fin.ofNat n i = 0 := by
    apply Fin.ext
    simp [Fin.ofNat, Nat.mod_eq_zero_of_dvd hi]
  funext k
  show r (k - Fin.ofNat n i) = r k
  rw [hzero, sub_zero]

/-- What line `i + 1` sees behind line `i`. -/
theorem rotated_inPlace (f : (Fin n → w) × σ → (Fin n → w) × σ) (i : ℕ)
    (r : Fin n → w) (x : σ) :
    rotated (i + 1) (inPlace f i (r, x)).1 = rotated 1 (f (rotated i r, x)).1 := by
  rw [Nat.add_comm, ← rotated_add]
  congr 1
  funext k
  show (f (rotated i r, x)).1 (k - Fin.ofNat n i + Fin.ofNat n i) = _
  rw [sub_add_cancel]

/-- **Lines with rotated names** leave what the rotating macro does, seen from
behind the last line. -/
theorem rotated_foldl (f : ℕ → (Fin n → w) × σ → (Fin n → w) × σ)
    (r : Fin n → w) (x : σ) : ∀ m : ℕ,
    let lines := (List.range m).foldl (fun s i => inPlace (f i) i s) (r, x)
    (rotated m lines.1, lines.2) = (List.range m).foldl
      (fun s i => (rotated 1 (f i s).1, (f i s).2)) (r, x)
  | 0 => by simp
  | m + 1 => by
      have ih := rotated_foldl f r x m
      simp only [List.range_succ, List.foldl_append, List.foldl_cons,
        List.foldl_nil] at ih ⊢
      rw [← ih, rotated_inPlace]
      rfl

end

/-! ## Windows -/

/-- A list with the last `n` entries of a table behind step `i`, the entry `j`
in place `j % n`. -/
structure Window {α : Type} (n : ℕ) (W : ℕ → α) (default : α) (x : List α)
    (i : ℕ) : Prop where
  length : x.length = n
  entries : ∀ j, j < max i n → i ≤ j + n → x.getD (j % n) default = W j

namespace Window

variable {α : Type} {n : ℕ} {W : ℕ → α} {default : α} {x : List α} {i : ℕ}

theorem init (hlen : x.length = n) (h : ∀ j < n, x.getD j default = W j) :
    Window n W default x 0 := by
  refine ⟨hlen, fun j hj _ => ?_⟩
  rw [Nat.zero_max] at hj
  rw [Nat.mod_eq_of_lt hj, h j hj]

/-- A step among the first `n` leaves the list. -/
theorem keep (h : Window n W default x i) (hi : i < n) :
    Window n W default x (i + 1) := by
  refine ⟨h.length, fun j hj hin => ?_⟩
  exact h.entries j (by omega) (by omega)

/-- A step behind them overwrites the entry that is not used any more. -/
theorem push (h : Window n W default x i) (hi : n ≤ i) (hn : 0 < n) :
    Window n W default (x.set (i % n) (W i)) (i + 1) := by
  have hmod : i % n < n := Nat.mod_lt i hn
  refine ⟨by rw [List.length_set, h.length], fun j hj hin => ?_⟩
  rw [Nat.max_eq_left (by omega)] at hj
  by_cases hji : j = i
  · rw [hji, List.getD_eq_getElem _ _ (by rw [List.length_set, h.length]; exact hmod),
      List.getElem_set_self]
  · have hne : i % n ≠ j % n := by
      intro heq
      have hdvd : n ∣ i - j :=
        Nat.dvd_of_mod_eq_zero (Nat.sub_mod_eq_zero_of_mod_eq heq)
      have hle := Nat.le_of_dvd (by omega) hdvd
      omega
    rw [List.getD_eq_getElem?_getD, List.getElem?_set_ne hne,
      ← List.getD_eq_getElem?_getD]
    exact h.entries j (by omega) (by omega)

end Window

end Nawam
