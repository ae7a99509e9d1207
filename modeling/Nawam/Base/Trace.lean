import Nawam.Base.Bytes

/-!
# Traces

What a run leaves behind: its steps in order, each with the state after it.
A claim about *every state a run passes through* is a claim about the trace,
and follows from what one step does; a claim about the end of the run alone
would miss the states in between, which another part of the program may see.
-/

namespace Nawam

/-- The steps of a run, each with the state it leads to. -/
abbrev Trace (ι σ : Type) : Type := List (ι × σ)

namespace Trace

variable {ι σ : Type}

/-- The state a trace from `s` ends in. -/
def last (s : σ) : Trace ι σ → σ
  | [] => s
  | (_, s') :: t => last s' t

/-- Every step of the trace from `s` on is one that `R` allows. -/
def Steps (R : σ → ι → σ → Prop) : σ → Trace ι σ → Prop
  | _, [] => True
  | s, (a, s') :: t => R s a s' ∧ Steps R s' t

theorem last_append (t t' : Trace ι σ) (s : σ) :
    last s (t ++ t') = last (last s t) t' := by
  induction t generalizing s with
  | nil => rfl
  | cons x t ih => exact ih x.2

theorem Steps.append {R : σ → ι → σ → Prop} {t t' : Trace ι σ} {s : σ}
    (h : Steps R s t) (h' : Steps R (last s t) t') : Steps R s (t ++ t') := by
  induction t generalizing s with
  | nil => exact h'
  | cons x t ih => exact ⟨h.1, ih h.2 h'⟩

theorem Steps.mono {R R' : σ → ι → σ → Prop}
    (h : ∀ s a s', R s a s' → R' s a s') {t : Trace ι σ} {s : σ}
    (ht : Steps R s t) : Steps R' s t := by
  induction t generalizing s with
  | nil => exact trivial
  | cons x t ih => exact ⟨h s x.1 x.2 ht.1, ih ht.2⟩

/-- What every step preserves holds in every state of the trace. -/
theorem Steps.invariant {R : σ → ι → σ → Prop} {I : σ → Prop}
    (hstep : ∀ s a s', R s a s' → I s → I s') {t : Trace ι σ} {s : σ}
    (h : Steps R s t) (hs : I s) : ∀ x ∈ t, I x.2 := by
  induction t generalizing s with
  | nil => simp
  | cons y t ih =>
      have hy := hstep s y.1 y.2 h.1 hs
      intro x hx
      rcases List.mem_cons.mp hx with rfl | hx
      · exact hy
      · exact ih h.2 hy x hx

/-- Two readings of a step that agree wherever the invariant holds, the second
of which keeps it, agree on whole traces. -/
theorem Steps.iff_of_invariant {H R R' : σ → ι → σ → Prop} {I : σ → Prop}
    (hiff : ∀ s a s', I s → H s a s' → (R s a s' ↔ R' s a s'))
    (hstep : ∀ s a s', I s → H s a s' → R' s a s' → I s') {t : Trace ι σ} {s : σ}
    (ht : Steps H s t) (hs : I s) : Steps R s t ↔ Steps R' s t := by
  induction t generalizing s with
  | nil => exact Iff.rfl
  | cons x t ih =>
      constructor
      · rintro ⟨hR, hrest⟩
        have hR' := (hiff s x.1 x.2 hs ht.1).mp hR
        exact ⟨hR', (ih ht.2 (hstep s x.1 x.2 hs ht.1 hR')).mp hrest⟩
      · rintro ⟨hR', hrest⟩
        exact ⟨(hiff s x.1 x.2 hs ht.1).mpr hR',
          (ih ht.2 (hstep s x.1 x.2 hs ht.1 hR')).mpr hrest⟩

/-- Whatever holds at the start and in every state of the trace holds at its
end. -/
theorem last_of_forall {I : σ → Prop} {t : Trace ι σ} {s : σ} (hs : I s)
    (h : ∀ x ∈ t, I x.2) : I (last s t) := by
  induction t generalizing s with
  | nil => exact hs
  | cons y t ih =>
      exact ih (h y List.mem_cons_self) fun x hx =>
        h x (List.mem_cons_of_mem y hx)

end Trace

/-- Runs `step` for one input after the other, each from the state the one
before it ended in. -/
def runAll {α ι σ : Type} (step : α → σ → C (Trace ι σ)) :
    List α → σ → C (Trace ι σ)
  | [], _ => return []
  | a :: as, s => do
      let t ← step a s
      let t' ← runAll step as (t.last s)
      return t ++ t'

/-- If each part of the run goes through from a state of the invariant and
ends in one, so does the run. -/
theorem runAll_steps {α ι σ κ : Type} {step : α → σ → C (Trace ι σ)}
    (I : σ → Prop) (R : σ → ι → σ → Prop) (label : ι → κ)
    (labels : α → List κ) : ∀ (as : List α) (s : σ), I s →
    (∀ a ∈ as, ∀ s, I s → ∃ t, step a s = .ok t ∧ t.Steps R s ∧ I (t.last s) ∧
      t.map (fun x => label x.1) = labels a) →
    ∃ t, runAll step as s = .ok t ∧ t.Steps R s ∧ I (t.last s) ∧
      t.map (fun x => label x.1) = as.flatMap labels := by
  intro as
  induction as with
  | nil => exact fun s hs _ => ⟨[], rfl, trivial, hs, rfl⟩
  | cons a as ih =>
      intro s hs hstep
      obtain ⟨t, hrun, hsteps, hI, hlabels⟩ :=
        hstep a List.mem_cons_self s hs
      obtain ⟨t', hrun', hsteps', hI', hlabels'⟩ := ih (t.last s) hI
        fun b hb => hstep b (List.mem_cons_of_mem a hb)
      refine ⟨t ++ t', ?_, hsteps.append hsteps', ?_, ?_⟩
      · simp [runAll, hrun, hrun']
      · rw [Trace.last_append]
        exact hI'
      · rw [List.map_append, hlabels, hlabels', List.flatMap_cons]

end Nawam
