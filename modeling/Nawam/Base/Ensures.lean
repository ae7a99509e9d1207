import Nawam.Base.Bytes

/-!
# Partial correctness

`Ensures x P`: if the computation `x` comes to an end without a fault, its
result has `P`. The rules follow the `do` notation, so a function is shown to
meet its contract statement by statement and a caller never unfolds it.
-/

namespace Nawam

/-- Whatever `x` returns has `P`. -/
def Ensures {α : Type} (x : C α) (P : α → Prop) : Prop := ∀ a, x = .ok a → P a

namespace Ensures

variable {α β : Type} {x : C α} {P Q : α → Prop} {R : β → Prop}

theorem ok {a : α} (h : P a) : Ensures (.ok a) P := by
  rintro _ ⟨⟩
  exact h

theorem pure {a : α} (h : P a) : Ensures (Pure.pure a) P := ok h

theorem error {e : Fault} : Ensures (.error e) P := by
  rintro _ ⟨⟩

theorem mono (h : Ensures x P) (hPQ : ∀ a, P a → Q a) : Ensures x Q :=
  fun a ha => hPQ a (h a ha)

/-- The contract of what comes first is all that what comes next may use. -/
theorem bind {f : α → C β} (h : Ensures x P) (hf : ∀ a, P a → Ensures (f a) R) :
    Ensures (x >>= f) R := by
  intro b hb
  cases hx : x with
  | error e =>
      rw [hx] at hb
      cases hb
  | ok a =>
      rw [hx] at hb
      exact hf a (h a hx) b hb

/-- Where nothing is known of what comes first, its result is at hand. -/
theorem bind_eq {f : α → C β} (hf : ∀ a, x = .ok a → Ensures (f a) R) :
    Ensures (x >>= f) R :=
  bind (fun _ ha => ha) hf

theorem ite {c : Prop} [Decidable c] {y : C α} (ht : c → Ensures x P)
    (hf : ¬c → Ensures y P) : Ensures (if c then x else y) P := by
  split
  case isTrue h => exact ht h
  case isFalse h => exact hf h

/-- What each turn keeps, the whole fold keeps. -/
theorem foldlM {f : β → α → C β} (hf : ∀ b a, R b → Ensures (f b a) R) :
    ∀ {l : List α} {b : β}, R b → Ensures (l.foldlM f b) R
  | [], _, hb => by
      rw [List.foldlM_nil]
      exact .pure hb
  | a :: l, b, hb => by
      rw [List.foldlM_cons]
      exact (hf b a hb).bind fun _ hb' => foldlM hf hb'

/-- Behind an assertion what it asserts can be used. -/
theorem assertThat {b : Bool} {f : Unit → C β}
    (h : b = true → Ensures (f ()) R) : Ensures (assertThat b >>= f) R := by
  cases b with
  | true => exact h rfl
  | false => exact error

end Ensures

/-- What a sequence returns comes of what its first part returns. -/
theorem C.bind_eq_ok {α β : Type} {x : C α} {f : α → C β} {b : β} :
    x >>= f = .ok b ↔ ∃ a, x = .ok a ∧ f a = .ok b := by
  cases x with
  | error e => exact iff_of_false nofun nofun
  | ok a => simp

/-! ## Accesses -/

theorem load_ensures (mem : List UInt8) (i : ℕ) :
    Ensures (load mem i) fun c => mem[i]? = some c := by
  intro c hc
  unfold load at hc
  split at hc
  case h_1 b hb =>
      cases hc
      exact hb
  case h_2 => cases hc

theorem store_ensures (mem : List UInt8) (i : ℕ) (b : UInt8) :
    Ensures (store mem i b) fun mem' => i < mem.length ∧ mem' = mem.set i b := by
  intro mem' h
  unfold store at h
  split at h
  case isTrue hi =>
      cases h
      exact ⟨hi, rfl⟩
  case isFalse => cases h

theorem loadN_ensures (mem : List UInt8) (i n : ℕ) :
    Ensures (loadN mem i n) fun data => i + n ≤ mem.length ∧ data.length = n := by
  intro data hrun
  unfold loadN at hrun
  split at hrun
  case isTrue h =>
      cases hrun
      rw [List.length_take, List.length_drop]
      omega
  case isFalse => cases hrun

theorem copyInto_length (block data : List UInt8) (i : ℕ) :
    Ensures (copyInto block i data) fun filled => filled.length = block.length := by
  intro filled hrun
  rw [copyInto] at hrun
  split at hrun
  case isTrue h =>
      cases hrun
      simp only [List.length_append, List.length_take, List.length_drop]
      omega
  case isFalse => cases hrun

end Nawam
