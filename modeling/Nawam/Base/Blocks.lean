import Nawam.Base.Pieces
import Mathlib.Tactic.Common

/-!
# Folding a stream block by block

A function that takes blocks of `n` elements, folded over the whole blocks of a
stream (`absorb`). A stream may be cut where a block ends (`absorb_append`), and
what does not fill a block is not seen (`absorb_take`); so a state together
with a partial block says all about a stream that comes in pieces.
-/

namespace Nawam

variable {σ α : Type} {n : ℕ}

/-- The state after the whole blocks of `data`. -/
def absorb (n : ℕ) (f : σ → List α → σ) (s : σ) (data : List α) : σ :=
  (pieces n (data.length / n) data).foldl f s

variable (f : σ → List α → σ) (s : σ)

theorem absorb_of_lt {data : List α} (h : data.length < n) :
    absorb n f s data = s := by
  rw [absorb, Nat.div_eq_of_lt h]
  rfl

@[simp] theorem absorb_nil : absorb n f s [] = s := by
  simp [absorb, pieces]

theorem absorb_block (hn : 0 < n) {block : List α} (hblock : block.length = n)
    (data : List α) :
    absorb n f s (block ++ data) = absorb n f (f s block) data := by
  have hdiv : (block ++ data).length / n = data.length / n + 1 := by
    rw [List.length_append, hblock, Nat.add_comm, Nat.add_div_right _ hn]
  subst hblock
  rw [absorb, absorb, hdiv, pieces, List.foldl_cons, List.take_left,
    List.drop_left]

theorem absorb_single (hn : 0 < n) {block : List α} (hblock : block.length = n) :
    absorb n f s block = f s block := by
  have h := absorb_block f s hn hblock []
  rwa [List.append_nil, absorb_nil] at h

theorem absorb_append (hn : 0 < n) : ∀ (k : ℕ) (s : σ) {first : List α},
    first.length = k * n → ∀ second,
      absorb n f s (first ++ second) = absorb n f (absorb n f s first) second
  | 0, s, first, hlen, second => by
      have hnil : first = [] := List.length_eq_zero_iff.mp (by omega)
      rw [hnil, List.nil_append, absorb_nil]
  | k + 1, s, first, hlen, second => by
      rw [Nat.succ_mul] at hlen
      have hblock : (first.take n).length = n :=
        List.length_take_of_le (by omega)
      rw [← List.take_append_drop n first, List.append_assoc,
        absorb_block f s hn hblock, absorb_block f s hn hblock]
      exact absorb_append hn k _ (by rw [List.length_drop]; omega) second

theorem absorb_take (hn : 0 < n) (data : List α) :
    absorb n f s (data.take (data.length / n * n)) = absorb n f s data := by
  have hle := Nat.div_mul_le_self data.length n
  have hlt := Nat.mod_lt data.length hn
  have hdiv := Nat.div_add_mod' data.length n
  conv_rhs => rw [← List.take_append_drop (data.length / n * n) data]
  rw [absorb_append f hn _ s (List.length_take_of_le hle)]
  exact (absorb_of_lt f _ (by rw [List.length_drop]; omega)).symm

/-- Blocks that are taken alike give states that are alike. -/
theorem absorb_rel {τ : Type} {g : τ → List α → τ} {R : σ → τ → Prop}
    (hstep : ∀ s t block, block.length = n → R s t → R (f s block) (g t block))
    {s : σ} {t : τ} (h : R s t) (data : List α) :
    R (absorb n f s data) (absorb n g t data) := by
  have hle := Nat.div_mul_le_self data.length n
  have hpieces : ∀ block ∈ pieces n (data.length / n) data, block.length = n :=
    length_of_mem_pieces hle
  unfold absorb
  generalize pieces n (data.length / n) data = blocks at hpieces
  induction blocks generalizing s t with
  | nil => exact h
  | cons block blocks ih =>
      exact ih (hstep s t block (hpieces block List.mem_cons_self) h)
        fun b hb => hpieces b (List.mem_cons_of_mem block hb)

end Nawam
