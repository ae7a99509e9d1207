import Nawam.Base.Achieves

/-!
# Insertion into an array

Room for an element is made in an array by the elements behind it, which move up by one, the
last one first. What that comes to is `List.insertIdx` on the part that is in use.
-/

namespace Nawam

variable {α : Type}

/-- `a[i] = x` -/
def storeEntry (a : List α) (i : ℕ) (x : α) : C (List α) :=
  if i < a.length then .ok (a.set i x) else .error .outOfBounds

/-- `for (j = i + n; j > i; j--) a[j] = a[j - 1];` -/
def shiftUp (i : ℕ) : (n : ℕ) → List α → C (List α)
  | 0, a => .ok a
  | n + 1, a => do
      let x ← entry a (i + n)
      let a ← storeEntry a (i + n + 1) x
      shiftUp i n a

variable {a b : List α} {i n : ℕ} {x : α}

theorem entry_of_lt (h : i < a.length) : entry a i = .ok a[i] := by
  rw [entry, List.getElem?_eq_getElem h]

theorem storeEntry_of_lt (h : i < a.length) : storeEntry a i x = .ok (a.set i x) := if_pos h

@[simp] theorem entry_append_cons (front : List α) (x : α) (back : List α) :
    entry (front ++ x :: back) front.length = .ok x := by
  simp [entry]

@[simp] theorem storeEntry_append_cons (front : List α) (x y : α) (back : List α) :
    storeEntry (front ++ x :: back) front.length y = .ok (front ++ y :: back) := by
  simp [storeEntry]

/-- The elements from `i` to `i + n` have moved up, and the `i`-th one is there twice. -/
theorem shiftUp_achieves : ∀ {n : ℕ} {a : List α}, i + n < a.length →
    Achieves (shiftUp i n a) fun b => b.length = a.length ∧
      ∀ j, b[j]? = if i < j ∧ j ≤ i + n then a[j - 1]? else a[j]? := by
  intro n
  induction n with
  | zero =>
      intro a _
      refine .ok ⟨rfl, fun j => ?_⟩
      rw [if_neg (by omega)]
  | succ n ih =>
      intro a h
      rw [← Nat.add_assoc] at h ⊢
      have hlt : i + n < a.length := by omega
      rw [shiftUp, entry_of_lt hlt, C.ok_bind, storeEntry_of_lt h, C.ok_bind]
      have hlength : (a.set (i + n + 1) a[i + n]).length = a.length := List.length_set ..
      refine (ih (by rw [hlength]; exact hlt)).mono ?_
      rintro b ⟨hb, hget⟩
      refine ⟨hb.trans hlength, fun j => ?_⟩
      rw [hget]
      by_cases hj : i < j ∧ j ≤ i + n
      · -- moved by one of the turns that follow
        rw [if_pos hj, if_pos (by omega), List.getElem?_set_ne (by omega)]
      · rw [if_neg hj]
        by_cases hlast : j = i + n + 1
        · subst hlast
          rw [if_pos (by omega), List.getElem?_set_self h, Nat.add_sub_cancel,
            List.getElem?_eq_getElem hlt]
        · rw [if_neg (by omega), List.getElem?_set_ne (by omega)]

theorem insertIdx_append (x : α) (back : List α) : ∀ front : List α,
    (front ++ back).insertIdx front.length x = front ++ x :: back
  | [] => List.insertIdx_zero
  | c :: front => by
      rw [List.cons_append, List.length_cons, List.insertIdx_succ_cons, insertIdx_append x back front,
        List.cons_append]

/-- With the new element in the room that is made, the part in use has it inserted. -/
theorem shiftUp_insert {front back : List α} (h : i + n < a.length) (hi : front.length = i)
    (hused : a.take (i + n) = front ++ back) :
    Achieves (shiftUp i n a) fun b =>
      b.length = a.length ∧ (b.set i x).take (i + n + 1) = front ++ x :: back := by
  refine (shiftUp_achieves h).mono ?_
  rintro b ⟨hlength, hget⟩
  have hlt : i < b.length := by omega
  refine ⟨hlength, ?_⟩
  rw [← insertIdx_append, ← hused, hi]
  apply List.ext_getElem?
  intro j
  rw [List.getElem?_take, List.getElem?_insertIdx, List.length_take]
  rcases Nat.lt_trichotomy j i with hlow | rfl | hgt
  · rw [if_pos (by omega), if_pos hlow, List.getElem?_set_ne (by omega), hget, if_neg (by omega),
      List.getElem?_take_of_lt (by omega)]
  · rw [if_pos (by omega), if_neg (Nat.lt_irrefl j), if_pos rfl, if_pos (by omega),
      List.getElem?_set_self hlt]
  · rw [if_neg (Nat.lt_asymm hgt), if_neg (Nat.ne_of_gt hgt), List.getElem?_take]
    by_cases hj : j < i + n + 1
    · rw [if_pos hj, if_pos (by omega), List.getElem?_set_ne (by omega), hget, if_pos (by omega)]
    · rw [if_neg hj, if_neg (by omega)]

end Nawam
