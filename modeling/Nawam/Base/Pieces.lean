import Mathlib.Data.List.Basic

/-!
# Cutting a block into equal pieces

Tables of fixed-size records in a byte buffer: the records of a block
(`pieces`), and the block of some records (`List.flatten`).
-/

namespace Nawam

variable {α : Type}

/-- The first `n` pieces of `k` bytes. -/
def pieces (k : ℕ) : ℕ → List α → List (List α)
  | 0, _ => []
  | n + 1, bs => bs.take k :: pieces k n (bs.drop k)

@[simp] theorem pieces_length (k : ℕ) : ∀ (n : ℕ) (bs : List α),
    (pieces k n bs).length = n
  | 0, _ => rfl
  | n + 1, bs => by rw [pieces, List.length_cons, pieces_length k n]

theorem pieces_flatten (k : ℕ) : ∀ (n : ℕ) (bs : List α),
    (pieces k n bs).flatten = bs.take (n * k)
  | 0, bs => by simp [pieces]
  | n + 1, bs => by
      rw [pieces, List.flatten_cons, pieces_flatten k n, Nat.succ_mul,
        Nat.add_comm, List.take_add]

theorem length_of_mem_pieces {k : ℕ} : ∀ {n : ℕ} {bs : List α},
    n * k ≤ bs.length → ∀ p ∈ pieces k n bs, p.length = k
  | n + 1, bs, h, p, hp => by
      rw [Nat.succ_mul] at h
      rcases List.mem_cons.mp hp with rfl | hp'
      · rw [List.length_take, Nat.min_eq_left (by omega)]
      · exact length_of_mem_pieces (by rw [List.length_drop]; omega) p hp'

theorem flatten_length {k : ℕ} : ∀ {ps : List (List α)},
    (∀ p ∈ ps, p.length = k) → ps.flatten.length = ps.length * k
  | [], _ => by simp
  | p :: ps, h => by
      rw [List.flatten_cons, List.length_append, h p List.mem_cons_self,
        flatten_length fun q hq => h q (List.mem_cons_of_mem p hq),
        List.length_cons, Nat.succ_mul, Nat.add_comm]

theorem flatten_slice {k : ℕ} : ∀ {ps : List (List α)},
    (∀ p ∈ ps, p.length = k) → ∀ {i : ℕ} (h : i < ps.length),
      (ps.flatten.drop (i * k)).take k = ps[i]
  | p :: ps, hps, 0, _ => by
      have hp := hps p List.mem_cons_self
      rw [Nat.zero_mul, List.drop_zero, List.flatten_cons, List.take_left' hp]
      rfl
  | p :: ps, hps, i + 1, h => by
      have hp := hps p List.mem_cons_self
      have hi : i < ps.length := Nat.lt_of_succ_lt_succ h
      rw [Nat.succ_mul, Nat.add_comm, ← List.drop_drop, List.flatten_cons,
        List.drop_left' hp,
        flatten_slice (fun q hq => hps q (List.mem_cons_of_mem p hq)) hi]
      rfl

end Nawam
