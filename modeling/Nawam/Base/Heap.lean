import Mathlib.Logic.Function.Basic
import Nawam.Base.Bytes

/-!
# A heap

Blocks under addresses that are given out once. Freeing a block that is not
there, or writing to one, is a fault, so a run that goes through has freed
nothing twice and used nothing after it was freed.
-/

namespace Nawam

/-- The blocks that are allocated; `next` is the next address. -/
structure Heap (β : Type) where
  blocks : ℕ → Option β
  next : ℕ
  fresh : ∀ a, next ≤ a → blocks a = none

namespace Heap

variable {β : Type}

theorem lt_next {h : Heap β} {a : ℕ} (ha : (h.blocks a).isSome) :
    a < h.next := by
  by_contra hle
  rw [h.fresh a (not_lt.mp hle)] at ha
  cases ha

/-- The heap with another block, or none, at an address below `next`. -/
def update (h : Heap β) (a : ℕ) (ha : a < h.next) (b : Option β) :
    Heap β where
  blocks := Function.update h.blocks a b
  next := h.next
  fresh := by
    intro c hc
    rw [Function.update_of_ne (by omega)]
    exact h.fresh c hc

/-- `malloc`, when it succeeds: the address and the heap. -/
def alloc (h : Heap β) (b : β) : ℕ × Heap β :=
  (h.next,
    { blocks := Function.update h.blocks h.next (some b)
      next := h.next + 1
      fresh := by
        intro c hc
        rw [Function.update_of_ne (by omega)]
        exact h.fresh c (by omega) })

def write (h : Heap β) (a : ℕ) (b : β) : C (Heap β) :=
  if ha : (h.blocks a).isSome then .ok (h.update a (lt_next ha) (some b))
  else .error .badBlock

/-- `free`; the null pointer is left alone. -/
def free (h : Heap β) : Option ℕ → C (Heap β)
  | none => .ok h
  | some a =>
      if ha : (h.blocks a).isSome then .ok (h.update a (lt_next ha) none)
      else .error .badBlock

theorem alloc_fresh (h : Heap β) (b : β) :
    ∃ a h', h.alloc b = (a, h') ∧ h.blocks a = none ∧
      h'.blocks = Function.update h.blocks a (some b) :=
  ⟨h.next, _, rfl, h.fresh h.next le_rfl, rfl⟩

theorem write_of_live {h : Heap β} {a : ℕ} {c : β} (hc : h.blocks a = some c)
    (b : β) : ∃ h', h.write a b = .ok h' ∧
      h'.blocks = Function.update h.blocks a (some b) := by
  have ha : (h.blocks a).isSome := by rw [hc]; rfl
  exact ⟨h.update a (lt_next ha) (some b), dif_pos ha, rfl⟩

theorem free_of_live {h : Heap β} {a : ℕ} {c : β} (hc : h.blocks a = some c) :
    ∃ h', h.free (some a) = .ok h' ∧
      h'.blocks = Function.update h.blocks a none := by
  have ha : (h.blocks a).isSome := by rw [hc]; rfl
  exact ⟨h.update a (lt_next ha) none, dif_pos ha, rfl⟩

/-- Freeing what a pointer points to, or the null pointer. -/
theorem free_of_live_or_null {h : Heap β} {p : Option ℕ}
    (hp : ∀ a, p = some a → ∃ c, h.blocks a = some c) :
    ∃ h', h.free p = .ok h' ∧
      ∀ a, h'.blocks a = if p = some a then none else h.blocks a := by
  cases p with
  | none => exact ⟨h, rfl, by simp⟩
  | some q =>
      obtain ⟨c, hc⟩ := hp q rfl
      obtain ⟨h', hfree, hblocks⟩ := free_of_live hc
      refine ⟨h', hfree, ?_⟩
      intro a
      rw [hblocks, Function.update_apply]
      simp only [Option.some.injEq, eq_comm]

end Heap

end Nawam

