import Nawam.Base.Pieces
import Mathlib.Data.UInt

/-!
# Memory

A drive or a buffer as a function from addresses to bytes, and the copy of a
piece of one into another.
-/

namespace Nawam

abbrev Memory : Type := ℕ → UInt8

/-- `target` with `n` bytes from `src[start]` on copied to `at`. -/
def blit (target : Memory) (dest : ℕ) (src : Memory) (start n : ℕ) : Memory :=
  fun i => if dest ≤ i ∧ i < dest + n then src (start + (i - dest)) else target i

/-- The `n` bytes from `start` on. -/
def slice (m : Memory) (start n : ℕ) : List UInt8 :=
  (List.range n).map fun k => m (start + k)

/-- `target` with a list of bytes copied to `dest`. -/
def blitList (target : Memory) (dest : ℕ) (bytes : List UInt8) : Memory :=
  blit target dest (fun k => bytes.getD k 0) 0 bytes.length

variable {target src : Memory} {dest start n i : ℕ}

theorem blit_inside (h : i < n) :
    blit target dest src start n (dest + i) = src (start + i) := by
  have hin : dest ≤ dest + i ∧ dest + i < dest + n := by omega
  rw [blit, if_pos hin, Nat.add_sub_cancel_left]

theorem blit_outside (h : i < dest ∨ dest + n ≤ i) :
    blit target dest src start n i = target i := by
  have hout : ¬(dest ≤ i ∧ i < dest + n) := by omega
  rw [blit, if_neg hout]

theorem blit_blit (src' : Memory) (start' : ℕ) :
    blit (blit target dest src' start' n) dest src start n = blit target dest src start n := by
  funext i
  by_cases h : dest ≤ i ∧ i < dest + n
  · rw [blit, if_pos h, blit, if_pos h]
  · rw [blit, if_neg h, blit, if_neg h, blit, if_neg h]

@[simp] theorem slice_length (m : Memory) (start n : ℕ) :
    (slice m start n).length = n := by
  simp [slice]

theorem slice_eq_iff {m m' : Memory} {start start' n : ℕ} :
    slice m start n = slice m' start' n ↔ ∀ k < n, m (start + k) = m' (start' + k) := by
  simp [slice, List.map_inj_left]

theorem slice_append (m : Memory) (start a b : ℕ) :
    slice m start (a + b) = slice m start a ++ slice m (start + a) b := by
  simp only [slice, List.range_add, List.map_append, List.map_map,
    Function.comp_def, Nat.add_assoc]

theorem blitList_inside (target : Memory) (dest : ℕ) {bytes : List UInt8} {k : ℕ}
    (h : k < bytes.length) :
    blitList target dest bytes (dest + k) = bytes.getD k 0 := by
  rw [blitList, blit_inside h, Nat.zero_add]

theorem blitList_outside (target : Memory) {dest : ℕ} {bytes : List UInt8} {i : ℕ}
    (h : i < dest ∨ dest + bytes.length ≤ i) :
    blitList target dest bytes i = target i :=
  blit_outside h

theorem slice_blitList (target : Memory) (bytes : List UInt8) {start n : ℕ}
    (h : start + n ≤ bytes.length) :
    slice (blitList target 0 bytes) start n = (bytes.drop start).take n := by
  apply List.ext_getElem
  · rw [slice_length, List.length_take, List.length_drop]
    omega
  · intro k hk _
    rw [slice_length] at hk
    have hin := blitList_inside target 0 (show start + k < bytes.length by omega)
    rw [Nat.zero_add] at hin
    simp only [slice, List.getElem_map, List.getElem_range, hin,
      List.getElem_take, List.getElem_drop]
    exact (List.getElem_eq_getD 0).symm

theorem pieces_slice (m : Memory) (k : ℕ) : ∀ n start : ℕ,
    pieces k n (slice m start (n * k))
      = (List.range n).map fun i => slice m (start + i * k) k
  | 0, _ => rfl
  | n + 1, start => by
      have hfront : (slice m start k).length = k := slice_length m start k
      rw [pieces, Nat.succ_mul, Nat.add_comm (n * k), slice_append,
        List.take_left' hfront, List.drop_left' hfront, pieces_slice m k n,
        List.range_succ_eq_map, List.map_cons, List.map_map, Nat.zero_mul,
        Nat.add_zero]
      congr 1
      refine List.map_congr_left fun i _ => ?_
      rw [Function.comp_apply, Nat.succ_mul, Nat.add_comm (i * k), Nat.add_assoc]

end Nawam
