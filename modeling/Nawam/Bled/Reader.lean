import Nawam.Base.Safe

/-!
# Reading a compressed file

How the functions of `bled_size.c` read the file whose decompressed size they are
asked for: `lseek`, and `read_exact`, which calls `_read` until it has all of the
bytes that it wants. `_read` takes an `unsigned int` and refuses what is not an `int`,
so nothing of 2 GB or more is ever read (`readExact_eq`).

A file is its bytes, and the position in it is passed along. What fails has no value.
-/

namespace Nawam

/-! ## Source -/

abbrev decompSizeError : ℤ := -1

abbrev decompSizeUnknown : ℤ := -2

/-- `(int64_t)v` for a `uint64_t` -/
def asInt64 (v : ℕ) : ℤ := (v : ℤ).bmod (2 ^ 64)

def lseek (origin : ℕ) (offset : ℤ) : Option ℕ :=
  if 0 ≤ origin + offset then some (origin + offset).toNat else none

/-- `_read(fd, p, count)` at the position `pos` -/
def crtRead (file : List UInt8) (pos count : ℕ) : Option (List UInt8) :=
  if count < 2 ^ 31 then some (Extent.slice file (pos, count)) else none

/-- The loop of `read_exact`: the bytes, and the position behind them -/
def readExactLoop (file : List UInt8) : (fuel n pos : ℕ) → Option (List UInt8 × ℕ)
  | _, 0, pos => some ([], pos)
  | 0, _ + 1, _ => none
  | fuel + 1, n + 1, pos =>
      match crtRead file pos ((n + 1) % 2 ^ 32) with
      | none => none
      | some [] => none
      | some got => do
          let (rest, pos) ← readExactLoop file fuel (n + 1 - got.length) (pos + got.length)
          some (got ++ rest, pos)

/-- `read_exact`. Every turn of its loop reads a byte at least. -/
def readExact (file : List UInt8) (n pos : ℕ) : Option (List UInt8 × ℕ) :=
  readExactLoop file n n pos

/-- The `n`-byte little-endian number at `buf[i]`: `get_le16`, `get_le32`, `get_le64` -/
def getLe (n : ℕ) (buf : List UInt8) (i : ℕ) : ℕ := fieldAt buf i n

/-! ## What is read -/

section

variable {file bs rest : List UInt8} {n pos fuel : ℕ}

theorem readExactLoop_succ (file : List UInt8) (fuel n pos : ℕ) :
    readExactLoop file (fuel + 1) (n + 1) pos =
      if (n + 1) % 2 ^ 32 < 2 ^ 31 ∧ Extent.slice file (pos, (n + 1) % 2 ^ 32) ≠ [] then
        (readExactLoop file fuel (n + 1 - (Extent.slice file (pos, (n + 1) % 2 ^ 32)).length)
          (pos + (Extent.slice file (pos, (n + 1) % 2 ^ 32)).length)).map
            fun r => (Extent.slice file (pos, (n + 1) % 2 ^ 32) ++ r.1, r.2)
      else none := by
  rw [readExactLoop, crtRead]
  by_cases hcount : (n + 1) % 2 ^ 32 < 2 ^ 31
  · rw [if_pos hcount]
    cases hgot : Extent.slice file (pos, (n + 1) % 2 ^ 32) with
    | nil => rw [if_neg (fun h => h.2 rfl)]
    | cons c s =>
        rw [if_pos ⟨hcount, List.cons_ne_nil c s⟩]
        exact Option.map_eq_bind.symm
  · rw [if_neg hcount, if_neg (fun h => hcount h.1)]

/-- At the end of the file nothing more is read. -/
theorem readExactLoop_end (h : file.length ≤ pos) : readExactLoop file fuel (n + 1) pos = none := by
  cases fuel with
  | zero => rfl
  | succ fuel =>
      have hnone (k : ℕ) : Extent.slice file (pos, k) = [] := by
        rw [Extent.slice, List.drop_eq_nil_of_le h, List.take_nil]
      rw [readExactLoop_succ, if_neg (fun hread => hread.2 (hnone _))]

theorem slice_length_min (file : List UInt8) (pos n : ℕ) :
    (Extent.slice file (pos, n)).length = min n (file.length - pos) := by
  rw [Extent.slice, List.length_take, List.length_drop]

/-- What is read is all there, and less than 2 GB, or the loop fails. A request of 4 GB
or more is cut to its low 32 bits and comes to one of 2 to 4 GB or of nothing. -/
theorem readExactLoop_big (h : 2 ^ 31 ≤ n) : readExactLoop file fuel n pos = none := by
  induction fuel generalizing n pos with
  | zero =>
      obtain ⟨n, rfl⟩ := Nat.exists_eq_add_one.mpr (show 0 < n by omega)
      rfl
  | succ fuel ih =>
      obtain ⟨n, rfl⟩ := Nat.exists_eq_add_one.mpr (show 0 < n by omega)
      have hlen := slice_length_min file pos ((n + 1) % 2 ^ 32)
      rw [readExactLoop_succ]
      by_cases hcount : (n + 1) % 2 ^ 32 < 2 ^ 31
      · rw [ih (by omega), Option.map_none, ite_self]
      · rw [if_neg (fun hread => hcount hread.1)]

/-- `read_exact` reads `n` bytes where there are so many, and never 2 GB or more. -/
theorem readExact_eq (file : List UInt8) (n pos : ℕ) :
    readExact file n pos =
      if n = 0 ∨ (n < 2 ^ 31 ∧ pos + n ≤ file.length) then
        some (Extent.slice file (pos, n), pos + n)
      else none := by
  rw [readExact]
  rcases Nat.eq_zero_or_pos n with rfl | hpos
  · rw [if_pos (Or.inl rfl), readExactLoop, Extent.slice, List.take_zero, Nat.add_zero]
  rcases Nat.lt_or_ge n (2 ^ 31) with hn | hn
  · obtain ⟨n, rfl⟩ := Nat.exists_eq_add_one.mpr hpos
    have hmod : (n + 1) % 2 ^ 32 = n + 1 := Nat.mod_eq_of_lt (by omega)
    have hlen := slice_length_min file pos (n + 1)
    rw [readExactLoop_succ, hmod]
    by_cases hfile : pos + (n + 1) ≤ file.length
    · have hall : (Extent.slice file (pos, n + 1)).length = n + 1 := by omega
      have hne : Extent.slice file (pos, n + 1) ≠ [] := by
        apply List.ne_nil_of_length_pos
        omega
      rw [if_pos ⟨hn, hne⟩, if_pos (Or.inr ⟨hn, hfile⟩), hall, Nat.sub_self, readExactLoop]
      rw [Option.map_some, List.append_nil]
    · -- a short read takes the loop to the end of the file
      obtain ⟨k, hk⟩ := Nat.exists_eq_add_one.mpr
        (show 0 < n + 1 - (Extent.slice file (pos, n + 1)).length by omega)
      rw [if_neg (c := n + 1 = 0 ∨ _) (by omega)]
      by_cases hend : file.length ≤ pos
      · exact if_neg (fun hread => hread.2 (List.length_eq_zero_iff.mp (by omega)))
      · rw [hk, readExactLoop_end (by omega), Option.map_none, ite_self]
  · rw [readExactLoop_big hn, if_neg (by omega)]

theorem readExact_of_drop (h : file.drop pos = bs ++ rest) (hn : bs.length = n)
    (hlt : n < 2 ^ 31) : readExact file n pos = some (bs, pos + n) := by
  subst hn
  rw [readExact_eq]
  rcases Nat.eq_zero_or_pos bs.length with hzero | hpos
  · rw [if_pos (Or.inl hzero), hzero, List.length_eq_zero_iff.mp hzero, Extent.slice,
      List.take_zero]
  · have hlen := congrArg List.length h
    rw [List.length_drop, List.length_append] at hlen
    rw [if_pos (Or.inr ⟨hlt, by omega⟩), Extent.slice, h, List.take_left]

theorem drop_of_drop (h : file.drop pos = bs ++ rest) (hn : bs.length = n) :
    file.drop (pos + n) = rest := by
  rw [← List.drop_drop, h, ← hn, List.drop_left]

theorem lseek_natCast (pos n : ℕ) : lseek pos (n : ℤ) = some (pos + n) := by
  rw [lseek, if_pos (by omega)]
  exact congrArg some (Int.toNat_natCast (pos + n))

end

/-! ## Signed 64-bit numbers -/

theorem asInt64_of_lt {v : ℕ} (h : v < 2 ^ 63) : asInt64 v = v := by
  exact Int.bmod_eq_of_le (by omega) (by omega)

/-- The upper half of the numbers below `m` -/
theorem bmod_of_half_le {v m : ℕ} (h : m ≤ 2 * v) (hv : v < m) : (v : ℤ).bmod m = v - m := by
  have hbmod : ((v : ℤ) - m).bmod m = v - m := Int.bmod_eq_of_le (by omega) (by omega)
  rw [← hbmod, Int.sub_bmod_right]

theorem asInt64_of_le {v : ℕ} (h : 2 ^ 63 ≤ v) (hv : v < 2 ^ 64) :
    asInt64 v = (v : ℤ) - (2 ^ 64 : ℕ) :=
  bmod_of_half_le (by omega) hv

theorem asInt64_eq_self_iff {v : ℕ} (hv : v < 2 ^ 64) : asInt64 v = v ↔ v < 2 ^ 63 := by
  rcases Nat.lt_or_ge v (2 ^ 63) with h | h
  · exact ⟨fun _ => h, fun _ => asInt64_of_lt h⟩
  · rw [asInt64_of_le h hv]
    omega

theorem asInt64_nonneg_iff {v : ℕ} (hv : v < 2 ^ 64) : 0 ≤ asInt64 v ↔ v < 2 ^ 63 := by
  rcases Nat.lt_or_ge v (2 ^ 63) with h | h
  · rw [asInt64_of_lt h]
    omega
  · rw [asInt64_of_le h hv]
    omega

/-! ## Bits of numbers -/

theorem and_two_pow_eq_zero_iff (n j : ℕ) : n &&& 2 ^ j = 0 ↔ n / 2 ^ j % 2 = 0 := by
  have hbit := Nat.testBit_eq_decide_div_mod_eq (x := n) (i := j)
  constructor
  · intro hzero
    have hand : (n &&& 2 ^ j).testBit j = false := by rw [hzero, Nat.zero_testBit]
    rw [Nat.testBit_and, Nat.testBit_two_pow_self, Bool.and_true, hbit] at hand
    have hne : ¬n / 2 ^ j % 2 = 1 := of_decide_eq_false hand
    omega
  · intro hzero
    apply Nat.eq_of_testBit_eq
    intro k
    rw [Nat.testBit_and, Nat.zero_testBit, Nat.testBit_two_pow]
    by_cases hk : j = k
    · subst hk
      rw [hbit, hzero]
      rfl
    · rw [decide_eq_false hk, Bool.and_false]

/-- A group of bits is put above the number that was read before it. -/
theorem or_shiftLeft {val shift : ℕ} (h : val < 2 ^ shift) (g : ℕ) :
    val ||| g <<< shift = val + g * 2 ^ shift := by
  rw [Nat.or_comm, ← Nat.shiftLeft_add_eq_or_of_lt h, Nat.shiftLeft_eq, Nat.add_comm]

theorem leValue_append : ∀ bs cs : List UInt8,
    leValue (bs ++ cs) = leValue bs + 256 ^ bs.length * leValue cs
  | [], cs => by
      rw [List.nil_append, leValue, List.length_nil, Nat.pow_zero, Nat.one_mul, Nat.zero_add]
  | b :: bs, cs => by
      rw [List.cons_append, leValue, leValue_append bs cs, leValue, List.length_cons, Nat.pow_succ',
        Nat.mul_add, Nat.add_assoc, Nat.mul_assoc]

theorem toNat_ofNat_of_lt {n : ℕ} (h : n < 256) : (UInt8.ofNat n).toNat = n := by
  rw [UInt8.toNat_ofNat']
  exact Nat.mod_eq_of_lt h

end Nawam
