import Nawam.Base.CString
import Nawam.Base.Extent

/-!
# Accesses in bounds

`Safe x`: the computation `x` does not come to an access outside of its buffer.
The rules take a `do` block apart into the conditions of its accesses. What is
read is `fieldAt`, a total function, so that the conditions are about the bytes
of the buffer and not about the outcome of a computation.
-/

namespace Nawam

/-- The little-endian field of `n` bytes at offset `i`. -/
def fieldAt (mem : List UInt8) (i n : ℕ) : ℕ := leValue (Extent.slice mem (i, n))

theorem loadLE_fieldAt {mem : List UInt8} {i n : ℕ} (h : i + n ≤ mem.length) :
    loadLE mem i n = .ok (fieldAt mem i n) :=
  loadLE_of_le h

theorem fieldAt_lt (mem : List UInt8) (i n : ℕ) : fieldAt mem i n < 256 ^ n := by
  have hlt := leValue_lt (Extent.slice mem (i, n))
  have hlen : (Extent.slice mem (i, n)).length ≤ n := List.length_take_le ..
  exact lt_of_lt_of_le hlt (Nat.pow_le_pow_right (by decide) hlen)

/-- Where a scan stops there is a byte that stops it. -/
theorem getElem?_of_findIdx? {stop : UInt8 → Bool} {mem : List UInt8} {i k : ℕ}
    (h : (mem.drop i).findIdx? stop = some k) :
    ∃ c, mem[i + k]? = some c ∧ stop c = true := by
  obtain ⟨hlt, hidx⟩ := List.findIdx?_eq_some_iff_findIdx_eq.mp h
  refine ⟨(mem.drop i)[k], ?_, ?_⟩
  · rw [← List.getElem?_drop]
    exact List.getElem?_eq_getElem hlt
  · subst hidx
    exact List.findIdx_getElem

/-- No access outside of the buffer. -/
def Safe {α : Type} (x : C α) : Prop := x ≠ .error .outOfBounds

namespace Safe

variable {α β : Type} {x : C α}

@[simp] theorem ok (a : α) : Safe (.ok a : C α) ↔ True := iff_of_true nofun trivial

@[simp] theorem pure (a : α) : Safe (Pure.pure a : C α) ↔ True := Safe.ok a

@[simp] theorem outOfBounds : ¬Safe (.error .outOfBounds : C α) := fun h => h rfl

theorem bind {f : α → C β} : Safe (x >>= f) ↔ Safe x ∧ ∀ a, x = .ok a → Safe (f a) := by
  cases x with
  | error e =>
      refine ⟨fun h => ⟨fun he => ?_, nofun⟩, fun h he => ?_⟩
      · cases he
        exact h rfl
      · cases he
        exact h.1 rfl
  | ok a =>
      refine ⟨fun h => ⟨nofun, ?_⟩, fun h => h.2 a rfl⟩
      rintro _ ⟨⟩
      exact h

theorem ite {c : Prop} [Decidable c] {y : C α} :
    Safe (if c then x else y) ↔ (c → Safe x) ∧ (¬c → Safe y) := by
  split
  case isTrue h => exact ⟨fun hx => ⟨fun _ => hx, fun hn => absurd h hn⟩, fun hx => hx.1 h⟩
  case isFalse h => exact ⟨fun hy => ⟨fun hc => absurd hc h, fun _ => hy⟩, fun hy => hy.2 h⟩

/-- Behind a return there is nothing left to read. -/
theorem ite_pure {c : Prop} [Decidable c] {a : α} :
    Safe (if c then Pure.pure a else x) ↔ (¬c → Safe x) := by
  rw [Safe.ite, Safe.pure, imp_true_iff, true_and]

/-- A field is read, and the rest goes on with what is there. -/
theorem loadLE_bind {mem : List UInt8} {i n : ℕ} {f : ℕ → C β} :
    Safe (loadLE mem i n >>= f) ↔ i + n ≤ mem.length ∧ Safe (f (fieldAt mem i n)) := by
  by_cases h : i + n ≤ mem.length
  · rw [loadLE_fieldAt h, C.ok_bind]
    exact (and_iff_right h).symm
  · rw [loadLE, loadN, if_neg h]
    exact iff_of_false (fun hsafe => hsafe rfl) fun hf => h hf.1

theorem loadN_bind {mem : List UInt8} {i n : ℕ} {f : List UInt8 → C β} :
    Safe (loadN mem i n >>= f) ↔
      i + n ≤ mem.length ∧ Safe (f (Extent.slice mem (i, n))) := by
  by_cases h : i + n ≤ mem.length
  · rw [loadN_of_le h, C.ok_bind]
    exact (and_iff_right h).symm
  · rw [loadN, if_neg h]
    exact iff_of_false (fun hsafe => hsafe rfl) fun hf => h hf.1

theorem loadN_iff {mem : List UInt8} {i n : ℕ} :
    Safe (loadN mem i n) ↔ i + n ≤ mem.length := by
  by_cases h : i + n ≤ mem.length
  · rw [loadN_of_le h]
    exact iff_of_true nofun h
  · rw [loadN, if_neg h]
    exact iff_of_false (fun hsafe => hsafe rfl) h

theorem load_bind {mem : List UInt8} {i : ℕ} {f : UInt8 → C β} :
    Safe (load mem i >>= f) ↔ ∃ c, mem[i]? = some c ∧ Safe (f c) := by
  unfold load
  cases h : mem[i]? with
  | none => exact iff_of_false (fun hsafe => hsafe rfl) nofun
  | some c =>
      refine ⟨fun hf => ⟨c, rfl, hf⟩, ?_⟩
      rintro ⟨_, ⟨⟩, hf⟩
      exact hf

theorem scanFrom_bind {stop : UInt8 → Bool} {mem : List UInt8} {i : ℕ} {f : ℕ → C β} :
    Safe (scanFrom stop mem i >>= f) ↔
      ∃ k, (mem.drop i).findIdx? stop = some k ∧ Safe (f (i + k)) := by
  unfold scanFrom
  cases h : (mem.drop i).findIdx? stop with
  | none => exact iff_of_false (fun hsafe => hsafe rfl) nofun
  | some k =>
      refine ⟨fun hf => ⟨k, rfl, hf⟩, ?_⟩
      rintro ⟨_, ⟨⟩, hf⟩
      exact hf

theorem store_bind {mem : List UInt8} {i : ℕ} {b : UInt8} {f : List UInt8 → C β} :
    Safe (store mem i b >>= f) ↔ i < mem.length ∧ Safe (f (mem.set i b)) := by
  unfold store
  by_cases h : i < mem.length
  · rw [if_pos h, C.ok_bind]
    exact (and_iff_right h).symm
  · rw [if_neg h]
    exact iff_of_false (fun hsafe => hsafe rfl) fun hf => h hf.1

theorem cstrAt_bind {mem : List UInt8} {i : ℕ} {f : List UInt8 → C β} :
    Safe (cstrAt mem i >>= f) ↔ Ascii.nul ∈ mem.drop i ∧
      Safe (f ((mem.drop i).takeWhile (· ≠ Ascii.nul))) := by
  unfold cstrAt
  by_cases h : Ascii.nul ∈ mem.drop i
  · rw [if_pos h, C.ok_bind]
    exact (and_iff_right h).symm
  · rw [if_neg h]
    exact iff_of_false (fun hsafe => hsafe rfl) fun hf => h hf.1

end Safe

end Nawam
