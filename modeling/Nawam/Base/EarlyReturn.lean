import Nawam.Base.Bytes

/-!
# Programs that return early

A program with a state that can return from anywhere, as the body of a function does
whose macros have a `return` in them: it faults, or it returns a value and leaves the
state as it is there, or its result is what the rest of the program goes on with.

`Meets` says that what holds in the beginning gives what holds in either end, and has a
rule for each form a program has. `Goes` and `Stops` say what a program comes to, for all
that is seen of the state.
-/

namespace Nawam

/-- What a program comes to -/
inductive RoutineEnd (ρ σ α : Type) where
  | fault (e : Fault)
  /-- the function returns -/
  | stop (r : ρ) (s : σ)
  /-- the program goes on -/
  | next (a : α) (s : σ)

/-- A program that may return early -/
def Routine (ρ σ α : Type) : Type := σ → RoutineEnd ρ σ α

def RoutineEnd.final {ρ σ α : Type} : RoutineEnd ρ σ α → Option σ
  | .fault _ => none
  | .stop _ s => some s
  | .next _ s => some s

namespace Routine

variable {ρ σ τ α β : Type}

/-- The rest goes on from where the first part has left the state. -/
protected def bind (x : Routine ρ σ α) (f : α → Routine ρ σ β) : Routine ρ σ β := fun s =>
  match x s with
  | .fault e => .fault e
  | .stop r s => .stop r s
  | .next a s => f a s

instance : Monad (Routine ρ σ) where
  pure a s := .next a s
  bind := Routine.bind

/-- `return r` -/
def stop (r : ρ) : Routine ρ σ α := fun s => .stop r s

/-- `x`, where `c` -/
def when (c : Prop) [Decidable c] (x : Routine ρ σ Unit) : Routine ρ σ Unit :=
  if c then x else pure ()

theorem bind_of_next {x : Routine ρ σ α} {f : α → Routine ρ σ β} {s s' : σ} {a : α}
    (h : x s = .next a s') : (x >>= f) s = f a s' := by
  change Routine.bind x f s = f a s'
  rw [Routine.bind, h]

theorem bind_of_stop {x : Routine ρ σ α} {f : α → Routine ρ σ β} {s s' : σ} {r : ρ}
    (h : x s = .stop r s') : (x >>= f) s = .stop r s' := by
  change Routine.bind x f s = .stop r s'
  rw [Routine.bind, h]

/-! ## What holds in either end -/

/-- There is no fault, and the state has what belongs to the end. -/
def Ends (Q : α → σ → Prop) (R : σ → Prop) : RoutineEnd ρ σ α → Prop
  | .fault _ => False
  | .stop _ s => R s
  | .next a s => Q a s

/-- From a state with `P` the program goes on with `Q`, or returns with `R`. -/
def Meets (P : σ → Prop) (x : Routine ρ σ α) (Q : α → σ → Prop) (R : σ → Prop) : Prop :=
  ∀ s, P s → Ends Q R (x s)

section

variable {P P' R : σ → Prop} {Q Q' : α → σ → Prop} {T : β → σ → Prop} {x : Routine ρ σ α}

theorem Meets.pure {a : α} (h : ∀ s, P s → Q a s) :
    Meets P (Pure.pure a : Routine ρ σ α) Q R := h

theorem Meets.stop {r : ρ} (h : ∀ s, P s → R s) : Meets P (Routine.stop r) Q R := h

theorem Meets.bind {f : α → Routine ρ σ β} (h : Meets P x Q R)
    (hf : ∀ a, Meets (Q a) (f a) T R) : Meets P (x >>= f) T R := by
  intro s hs
  have hx := h s hs
  cases hend : x s with
  | fault e =>
      rw [hend] at hx
      exact absurd hx id
  | stop r s' =>
      rw [hend] at hx
      rw [bind_of_stop hend]
      exact hx
  | next a s' =>
      rw [hend] at hx
      rw [bind_of_next hend]
      exact hf a s' hx

theorem Meets.mono (h : Meets P x Q R) (hP : ∀ s, P' s → P s) (hQ : ∀ a s, Q a s → Q' a s) :
    Meets P' x Q' R := by
  intro s hs
  have hx := h s (hP s hs)
  cases hend : x s with
  | fault e =>
      rw [hend] at hx
      exact hx
  | stop r s' =>
      rw [hend] at hx
      exact hx
  | next a s' =>
      rw [hend] at hx
      exact hQ a s' hx

theorem Meets.ite {c : Prop} [Decidable c] {y : Routine ρ σ α} (ht : c → Meets P x Q R)
    (hf : ¬c → Meets P y Q R) : Meets P (if c then x else y) Q R := by
  split
  case isTrue h => exact ht h
  case isFalse h => exact hf h

/-- What is known of the result that came before -/
theorem Meets.of_and {c : Prop} (h : c → Meets P x Q R) : Meets (fun s => c ∧ P s) x Q R :=
  fun s hs => h hs.1 s hs.2

theorem Meets.when {c : Prop} [Decidable c] {y : Routine ρ σ Unit}
    (h : Meets P y (fun _ => P) R) : Meets P (Routine.when c y) (fun _ => P) R :=
  .ite (fun _ => h) fun _ => .pure fun _ hs => hs

end

/-- Where both ends have the same, the state in the end has it. -/
theorem Meets.final {P R : σ → Prop} {x : Routine ρ σ α} (h : Meets P x (fun _ => R) R) {s : σ}
    (hs : P s) : ∃ s', (x s).final = some s' ∧ R s' := by
  have hx := h s hs
  cases hend : x s with
  | fault e =>
      rw [hend] at hx
      exact absurd hx id
  | stop r s' =>
      rw [hend] at hx
      exact ⟨s', rfl, hx⟩
  | next a s' =>
      rw [hend] at hx
      exact ⟨s', rfl, hx⟩

/-! ## What it comes to -/

/-- From where `view` sees `t`, the program goes on with `a`, where `view` sees `t'`. -/
def Goes (view : σ → τ) (x : Routine ρ σ α) (t : τ) (a : α) (t' : τ) : Prop :=
  ∀ s, view s = t → ∃ s', x s = .next a s' ∧ view s' = t'

/-- From where `view` sees `t`, the program returns `r`. -/
def Stops (view : σ → τ) (x : Routine ρ σ α) (t : τ) (r : ρ) : Prop :=
  ∀ s, view s = t → ∃ s', x s = .stop r s'

section

variable {view : σ → τ} {x : Routine ρ σ α} {f : α → Routine ρ σ β} {t t' t'' : τ} {a : α} {b : β}
  {r : ρ}

theorem Goes.pure : Goes view (Pure.pure a : Routine ρ σ α) t a t := fun s hs => ⟨s, rfl, hs⟩

theorem Stops.stop : Stops view (Routine.stop r : Routine ρ σ α) t r := fun s _ => ⟨s, rfl⟩

theorem Goes.bind (h : Goes view x t a t') (hf : Goes view (f a) t' b t'') :
    Goes view (x >>= f) t b t'' := by
  intro s hs
  obtain ⟨s', hx, hs'⟩ := h s hs
  rw [bind_of_next hx]
  exact hf s' hs'

theorem Goes.bind_stops (h : Goes view x t a t') (hf : Stops view (f a) t' r) :
    Stops view (x >>= f) t r := by
  intro s hs
  obtain ⟨s', hx, hs'⟩ := h s hs
  rw [bind_of_next hx]
  exact hf s' hs'

theorem Stops.bind (h : Stops view x t r) : Stops view (x >>= f) t r := by
  intro s hs
  obtain ⟨s', hx⟩ := h s hs
  exact ⟨s', bind_of_stop hx⟩

end

end Routine

end Nawam
