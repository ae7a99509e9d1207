import Nawam.Base.Bytes

/-!
# Blocks of the heap

A block as the list of its elements. Whether there is memory for one, and what is in it then, is
up to the heap.
-/

namespace Nawam

variable {α : Type}

/-- What the heap answers: whether there is memory, and what is in it. -/
structure HeapAnswer (α : Type) where
  allocated : Bool
  garbage : ℕ → α

/-- No block has 2^63 bytes. -/
def HeapAnswer.grants (answer : HeapAnswer α) (bytes : ℕ) : Bool :=
  answer.allocated && decide (bytes < 2 ^ 63)

/-- `realloc` to `n` elements -/
def reallocBlock (answer : HeapAnswer α) (block : List α) (n : ℕ) : List α :=
  block.take n ++ (List.range (n - block.length)).map answer.garbage

/-- A block that becomes larger keeps what is in it. -/
theorem reallocBlock_of_le (answer : HeapAnswer α) {block : List α} {n : ℕ} (h : block.length ≤ n) :
    reallocBlock answer block n =
      block ++ (List.range (n - block.length)).map answer.garbage := by
  rw [reallocBlock, List.take_of_length_le h]

theorem reallocBlock_length (answer : HeapAnswer α) {block : List α} {n : ℕ} (h : block.length ≤ n) :
    (reallocBlock answer block n).length = n := by
  rw [reallocBlock_of_le answer h, List.length_append, List.length_map, List.length_range]
  omega

end Nawam
