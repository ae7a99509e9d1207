import Mathlib.Data.List.Basic

/-!
# Systems of interleaved steps

Several parties that take turns in any order are one system whose actions say
who moves and what the surroundings answer. What every step preserves holds
of every reachable state; and where every step brings a measure down, a run
that can always go on until it is done comes to its end.
-/

namespace Nawam

/-- Where a system may start, and what an action does: `none` where it is not
enabled. -/
structure System (σ α : Type) where
  init : σ → Prop
  step : α → σ → Option σ

namespace System

variable {σ α : Type} (sys : System σ α)

/-- What the system can come to. -/
inductive Reachable : σ → Prop where
  | init {s : σ} : sys.init s → Reachable s
  | step {s s' : σ} {a : α} : Reachable s → sys.step a s = some s' → Reachable s'

/-- What the system can come to by steps out of states with `P`. -/
inductive Through (P : σ → Prop) : σ → Prop where
  | init {s : σ} : sys.init s → Through P s
  | step {s s' : σ} {a : α} : Through P s → P s → sys.step a s = some s' →
      Through P s'

/-- What the system can come to by actions that `P` admits where they are
taken. -/
inductive Along (P : α → σ → Prop) : σ → Prop where
  | init {s : σ} : sys.init s → Along P s
  | step {s s' : σ} {a : α} : Along P s → P a s → sys.step a s = some s' →
      Along P s'

def run : List α → σ → Option σ
  | [], s => some s
  | a :: as, s => (sys.step a s).bind (run as)

/-- `P` holds of every state that the actions step out of. -/
def Throughout (P : σ → Prop) : List α → σ → Prop
  | [], _ => True
  | a :: as, s => P s ∧ ∀ t ∈ sys.step a s, Throughout P as t

instance decidableThroughout (P : σ → Prop) [DecidablePred P] :
    ∀ as s, Decidable (sys.Throughout P as s)
  | [], _ => isTrue trivial
  | a :: as, s =>
      have (t : σ) : Decidable (sys.Throughout P as t) := decidableThroughout P as t
      inferInstanceAs (Decidable (P s ∧ ∀ t ∈ sys.step a s, sys.Throughout P as t))

variable {sys}

/-- What holds at the start and is preserved by every step holds of every
reachable state. -/
theorem Reachable.invariant {I : σ → Prop} (hinit : ∀ s, sys.init s → I s)
    (hstep : ∀ s a s', I s → sys.step a s = some s' → I s') {s : σ}
    (h : sys.Reachable s) : I s := by
  induction h with
  | init hs => exact hinit _ hs
  | step _ hs ih => exact hstep _ _ _ ih hs

theorem Through.reachable {P : σ → Prop} {s : σ} (h : sys.Through P s) :
    sys.Reachable s := by
  induction h with
  | init hs => exact .init hs
  | step _ _ hs ih => exact ih.step hs

theorem Along.reachable {P : α → σ → Prop} {s : σ} (h : sys.Along P s) :
    sys.Reachable s := by
  induction h with
  | init hs => exact .init hs
  | step _ _ hs ih => exact ih.step hs

/-- Along steps out of states with `P` an invariant has to be preserved by these
only; what holds of every reachable state can be used. -/
theorem Through.invariant {P I : σ → Prop} (hinit : ∀ s, sys.init s → I s)
    (hstep : ∀ s a s', sys.Reachable s → P s → I s → sys.step a s = some s' →
      I s') {s : σ} (h : sys.Through P s) : I s := by
  induction h with
  | init hs => exact hinit _ hs
  | step h hP hs ih => exact hstep _ _ _ h.reachable hP ih hs

theorem Reachable.run {s s' : σ} (h : sys.Reachable s) : ∀ {as : List α},
    sys.run as s = some s' → sys.Reachable s'
  | [], hrun => by
      cases hrun
      exact h
  | _ :: _, hrun => by
      obtain ⟨t, ht, hrun⟩ := Option.bind_eq_some_iff.mp hrun
      exact (h.step ht).run hrun

theorem Through.run {P : σ → Prop} {s s' : σ} (h : sys.Through P s) :
    ∀ {as : List α}, sys.Throughout P as s → sys.run as s = some s' →
      sys.Through P s'
  | [], _, hrun => by
      cases hrun
      exact h
  | _ :: _, hall, hrun => by
      obtain ⟨t, ht, hrun⟩ := Option.bind_eq_some_iff.mp hrun
      exact (h.step hall.1 ht).run (hall.2 t ht) hrun

section Measure

variable {μ : σ → ℕ}
  (hμ : ∀ s a s', sys.Reachable s → sys.step a s = some s' → μ s' < μ s)
include hμ

/-- No run is longer than the measure of where it starts. -/
theorem Reachable.run_length {s s' : σ} (h : sys.Reachable s) :
    ∀ {as : List α}, sys.run as s = some s' → as.length + μ s' ≤ μ s
  | [], hrun => by
      cases hrun
      simp
  | a :: as, hrun => by
      obtain ⟨t, ht, hrun⟩ := Option.bind_eq_some_iff.mp hrun
      have hlt : μ t < μ s := hμ s a t h ht
      have ih : as.length + μ s' ≤ μ t := (h.step ht).run_length hrun
      rw [List.length_cons]
      omega

end Measure

/-- A system that can go on until it is done, and comes closer to it each time,
can be run until it is. -/
theorem Reachable.finishes (μ : σ → ℕ) {I done : σ → Prop}
    (hnext : ∀ s, sys.Reachable s → I s → ¬done s →
      ∃ a s', sys.step a s = some s' ∧ I s' ∧ μ s' < μ s) {s : σ}
    (h : sys.Reachable s) (hI : I s) :
    ∃ as s', sys.run as s = some s' ∧ I s' ∧ done s' := by
  induction hm : μ s using Nat.strongRecOn generalizing s with
  | ind m ih =>
      by_cases hdone : done s
      · exact ⟨[], s, rfl, hI, hdone⟩
      · obtain ⟨a, t, ht, hIt, hlt⟩ := hnext s h hI hdone
        obtain ⟨as, s', hrun, hI', hdone'⟩ :=
          ih (μ t) (hm ▸ hlt) (h.step ht) hIt rfl
        refine ⟨a :: as, s', ?_, hI', hdone'⟩
        rw [System.run, ht]
        exact hrun

end System

end Nawam
