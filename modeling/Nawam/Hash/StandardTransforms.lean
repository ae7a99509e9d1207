import Nawam.Hash.StandardConstants
import Nawam.Hash.TransformLines
import Mathlib.Tactic.Abel

/-!
# The transforms are the standard ones

`sha1_transform_cc`, `sha256_transform_cc`, `sha512_transform` and
`md5_transform` of `hash.c` against the compression functions of FIPS 180-4 and
RFC 1321. The words of the source, in a window of 16 or all in one table, are
those of the message schedule; the macros are the functions of the standards
with their operations in another order; so each step is a round.
-/

namespace Nawam

open Standard

/-! ## Bits -/

section Bits

variable {w : ℕ} (x y z : BitVec w)

theorem Ch_eq : z ^^^ (x &&& (y ^^^ z)) = Ch x y z := by
  apply BitVec.eq_of_getLsbD_eq
  intro i hi
  simp only [Ch, BitVec.getLsbD_xor, BitVec.getLsbD_and, BitVec.getLsbD_not, hi,
    decide_true, Bool.true_and]
  cases x.getLsbD i <;> cases y.getLsbD i <;> cases z.getLsbD i <;> rfl

theorem Maj_eq : (x &&& y) ||| (z &&& (x ||| y)) = Maj x y z := by
  apply BitVec.eq_of_getLsbD_eq
  intro i hi
  simp only [Maj, BitVec.getLsbD_xor, BitVec.getLsbD_and, BitVec.getLsbD_or]
  cases x.getLsbD i <;> cases y.getLsbD i <;> cases z.getLsbD i <;> rfl

theorem getLsbD_ror {r i : ℕ} (hi : i < w) :
    (x.rotateRight r).getLsbD i = x.getLsbD ((i + r) % w) := by
  have hr : r % w < w := Nat.mod_lt r (by omega)
  rw [BitVec.getLsbD_rotateRight, ← Nat.add_mod_mod]
  by_cases hlow : i < w - r % w
  · simp only [hlow, decide_true, cond_true]
    rw [Nat.mod_eq_of_lt (show i + r % w < w by omega), Nat.add_comm]
  · simp only [hlow, hi, decide_false, decide_true, cond_false, Bool.true_and]
    rw [Nat.mod_eq_sub_mod (show w ≤ i + r % w by omega),
      Nat.mod_eq_of_lt (show i + r % w - w < w by omega)]
    congr 1
    omega

theorem ror_xor (r : ℕ) :
    (x ^^^ y).rotateRight r = x.rotateRight r ^^^ y.rotateRight r := by
  apply BitVec.eq_of_getLsbD_eq
  intro i hi
  simp only [BitVec.getLsbD_xor, getLsbD_ror _ hi]

theorem ror_ror (r s : ℕ) :
    (x.rotateRight r).rotateRight s = x.rotateRight (r + s) := by
  apply BitVec.eq_of_getLsbD_eq
  intro i hi
  have hmod : (i + s) % w < w := Nat.mod_lt _ (by omega)
  rw [getLsbD_ror _ hi, getLsbD_ror _ hmod, getLsbD_ror _ hi, Nat.mod_add_mod,
    Nat.add_assoc, Nat.add_comm s]

/-- What the nested rotations of the source come to. -/
theorem nested_ror (p q r : ℕ) :
    ((x.rotateRight p ^^^ x).rotateRight q ^^^ x).rotateRight r
      = x.rotateRight r ^^^ x.rotateRight (q + r) ^^^ x.rotateRight (p + q + r) := by
  rw [ror_xor, ror_xor, ror_xor, ror_ror, ror_ror, ror_ror, BitVec.xor_comm,
    BitVec.xor_comm (x.rotateRight (p + (q + r))), BitVec.xor_assoc, Nat.add_assoc]

theorem nested_ror_two (p q : ℕ) :
    (x.rotateRight p ^^^ x).rotateRight q
      = x.rotateRight q ^^^ x.rotateRight (p + q) := by
  rw [ror_xor, ror_ror, BitVec.xor_comm]

end Bits

theorem ror32_toBitVec (x : UInt32) {r : UInt32} (hpos : 0 < r.toNat)
    (hlt : r.toNat < 32) : (ror32 x r).toBitVec = x.toBitVec.rotateRight r.toNat := by
  have hback : (4294967296 - r.toNat) % 32 = 32 - r.toNat := by omega
  simp [ror32, UInt32.toBitVec_shiftRight, UInt32.toBitVec_shiftLeft,
    BitVec.rotateRight_def, Nat.mod_eq_of_lt hlt, hback]

theorem rol32_toBitVec (x : UInt32) {r : UInt32} (hpos : 0 < r.toNat)
    (hlt : r.toNat < 32) : (rol32 x r).toBitVec = x.toBitVec.rotateLeft r.toNat := by
  have hback : (4294967296 - r.toNat) % 32 = 32 - r.toNat := by omega
  simp [rol32, UInt32.toBitVec_shiftRight, UInt32.toBitVec_shiftLeft,
    BitVec.rotateLeft_def, Nat.mod_eq_of_lt hlt, hback]

theorem ror64_toBitVec (x : UInt64) {r : UInt64} (hpos : 0 < r.toNat)
    (hlt : r.toNat < 64) : (ror64 x r).toBitVec = x.toBitVec.rotateRight r.toNat := by
  have hback : (18446744073709551616 - r.toNat) % 64 = 64 - r.toNat := by omega
  simp [ror64, UInt64.toBitVec_shiftRight, UInt64.toBitVec_shiftLeft,
    BitVec.rotateRight_def, Nat.mod_eq_of_lt hlt, hback]

/-! ## The functions of SHA-2 -/

theorem sha256_S0 (x : UInt32) :
    (Sha256.S0 x).toBitVec = sha256.bigSigma0 x.toBitVec := by
  simp only [Sha256.S0]
  rw [ror32_toBitVec _ (by decide) (by decide), UInt32.toBitVec_xor,
    ror32_toBitVec _ (by decide) (by decide), UInt32.toBitVec_xor,
    ror32_toBitVec _ (by decide) (by decide)]
  exact nested_ror x.toBitVec 9 11 2

theorem sha256_S1 (x : UInt32) :
    (Sha256.S1 x).toBitVec = sha256.bigSigma1 x.toBitVec := by
  simp only [Sha256.S1]
  rw [ror32_toBitVec _ (by decide) (by decide), UInt32.toBitVec_xor,
    ror32_toBitVec _ (by decide) (by decide), UInt32.toBitVec_xor,
    ror32_toBitVec _ (by decide) (by decide)]
  exact nested_ror x.toBitVec 14 5 6

theorem sha256_s0 (x : UInt32) :
    (Sha256.s0 x).toBitVec = sha256.smallSigma0 x.toBitVec := by
  simp only [Sha256.s0]
  rw [UInt32.toBitVec_xor, ror32_toBitVec _ (by decide) (by decide),
    UInt32.toBitVec_xor, ror32_toBitVec _ (by decide) (by decide)]
  exact congrArg (· ^^^ (x.toBitVec >>> 3)) (nested_ror_two x.toBitVec 11 7)

theorem sha256_s1 (x : UInt32) :
    (Sha256.s1 x).toBitVec = sha256.smallSigma1 x.toBitVec := by
  simp only [Sha256.s1]
  rw [UInt32.toBitVec_xor, ror32_toBitVec _ (by decide) (by decide),
    UInt32.toBitVec_xor, ror32_toBitVec _ (by decide) (by decide)]
  exact congrArg (· ^^^ (x.toBitVec >>> 10)) (nested_ror_two x.toBitVec 2 17)

theorem sha512_S0 (x : UInt64) :
    (Sha512.S0 x).toBitVec = sha512.bigSigma0 x.toBitVec := by
  simp only [Sha512.S0]
  rw [ror64_toBitVec _ (by decide) (by decide), UInt64.toBitVec_xor,
    ror64_toBitVec _ (by decide) (by decide), UInt64.toBitVec_xor,
    ror64_toBitVec _ (by decide) (by decide)]
  exact nested_ror x.toBitVec 5 6 28

theorem sha512_S1 (x : UInt64) :
    (Sha512.S1 x).toBitVec = sha512.bigSigma1 x.toBitVec := by
  simp only [Sha512.S1]
  rw [ror64_toBitVec _ (by decide) (by decide), UInt64.toBitVec_xor,
    ror64_toBitVec _ (by decide) (by decide), UInt64.toBitVec_xor,
    ror64_toBitVec _ (by decide) (by decide)]
  exact nested_ror x.toBitVec 23 4 14

theorem sha512_s0 (x : UInt64) :
    (Sha512.s0 x).toBitVec = sha512.smallSigma0 x.toBitVec := by
  simp only [Sha512.s0]
  rw [UInt64.toBitVec_xor, ror64_toBitVec _ (by decide) (by decide),
    UInt64.toBitVec_xor, ror64_toBitVec _ (by decide) (by decide)]
  exact congrArg (· ^^^ (x.toBitVec >>> 7)) (nested_ror_two x.toBitVec 7 1)

theorem sha512_s1 (x : UInt64) :
    (Sha512.s1 x).toBitVec = sha512.smallSigma1 x.toBitVec := by
  simp only [Sha512.s1]
  rw [UInt64.toBitVec_xor, ror64_toBitVec _ (by decide) (by decide),
    UInt64.toBitVec_xor, ror64_toBitVec _ (by decide) (by decide)]
  exact congrArg (· ^^^ (x.toBitVec >>> 6)) (nested_ror_two x.toBitVec 42 19)

/-! ## The words of a block -/

theorem bigEndian_append (bytes : List UInt8) (b : UInt8) :
    bigEndian (bytes ++ [b]) = 256 * bigEndian bytes + b.toNat := by
  rw [bigEndian, List.foldl_append]
  rfl

theorem leValue_eq : ∀ bytes : List UInt8, leValue bytes = littleEndian bytes
  | [] => rfl
  | b :: bytes => by
      rw [leValue, littleEndian, List.reverse_cons, bigEndian_append,
        leValue_eq bytes, littleEndian, Nat.add_comm]

theorem leValue_reverse (bytes : List UInt8) :
    leValue bytes.reverse = bigEndian bytes := by
  rw [leValue_eq, littleEndian, List.reverse_reverse]

theorem pieces_getD {α β : Type} {k : ℕ} (f : List α → β) (zero : β) :
    ∀ {n : ℕ} {data : List α} {t : ℕ}, t < n →
      ((pieces k n data).map f).getD t zero = f ((data.drop (k * t)).take k)
  | n + 1, data, 0, _ => rfl
  | n + 1, data, t + 1, h => by
      rw [Nat.mul_succ, Nat.add_comm (k * t), ← List.drop_drop]
      exact pieces_getD f zero (Nat.lt_of_succ_lt_succ h)

/-- The words that the SHA-1 and SHA-256 transforms read -/
theorem readSwap32_word (data : List UInt8) {t : ℕ} (ht : t < 16) :
    ((pieces 4 16 data).map readSwap32).getD t 0
      = ⟨blockWord bigEndian 4 data t⟩ := by
  rw [pieces_getD readSwap32 0 ht, readSwap32, leValue_reverse]
  rfl

/-! ## SHA-1 -/

theorem Standard.Sha1.W_ge {M : ℕ → BitVec 32} {t : ℕ} (ht : 16 ≤ t) :
    Sha1.W M t = (Sha1.W M (t - 3) ^^^ Sha1.W M (t - 8) ^^^ Sha1.W M (t - 14)
      ^^^ Sha1.W M (t - 16)).rotateLeft 1 := by
  rw [Sha1.W, if_neg (by omega)]

theorem Standard.Sha1.W_lt {M : ℕ → BitVec 32} {t : ℕ} (ht : t < 16) :
    Sha1.W M t = M t := by
  rw [Sha1.W, if_pos ht]

/-- `x[i]` or `M(i)` is the word of the schedule. -/
theorem sha1Word_window {M : ℕ → BitVec 32} {x : List UInt32} {i : ℕ}
    (h : Window 16 (fun t => ⟨Sha1.W M t⟩) 0 x i) :
    Window 16 (fun t => ⟨Sha1.W M t⟩) 0 (sha1Word x i) (i + 1) := by
  by_cases hi : i < 16
  · rw [sha1Word, if_pos hi]
    exact h.keep hi
  · have hle : 16 ≤ i := Nat.le_of_not_lt hi
    have hfirst : i % 16 = (i - 16) % 16 := by omega
    have hword : rol32 (x.getD (i % 16) 0 ^^^ x.getD ((i - 14) % 16) 0
        ^^^ x.getD ((i - 8) % 16) 0 ^^^ x.getD ((i - 3) % 16) 0) 1
        = ⟨Sha1.W M i⟩ := by
      rw [hfirst, h.entries (i - 16) (by omega) (by omega),
        h.entries (i - 14) (by omega) (by omega),
        h.entries (i - 8) (by omega) (by omega),
        h.entries (i - 3) (by omega) (by omega)]
      apply UInt32.toBitVec_inj.mp
      rw [rol32_toBitVec _ (by decide) (by decide), Sha1.W_ge hle]
      simp only [UInt32.toBitVec_xor]
      congr 1
      ac_rfl
    simp only [sha1Word, if_neg hi, hword]
    exact h.push hle (by decide)

theorem sha1Round_f (i : ℕ) (x y z : UInt32) :
    ((sha1Round i).1 x y z).toBitVec
      = Sha1.f i x.toBitVec y.toBitVec z.toBitVec := by
  have hch : (ch x y z).toBitVec = Ch x.toBitVec y.toBitVec z.toBitVec :=
    Ch_eq _ _ _
  have hma : (ma x y z).toBitVec = Maj x.toBitVec y.toBitVec z.toBitVec :=
    Maj_eq _ _ _
  unfold sha1Round Sha1.f
  split_ifs
  · exact hch
  · rfl
  · exact hma
  · rfl

theorem sha1Round_K (i : ℕ) : (sha1Round i).2.toBitVec = Sha1.K i := by
  unfold sha1Round Sha1.K
  split_ifs <;> rfl

def sha1Working : Sha1Registers → Sha1.Working
  | (a, b, c, d, e) =>
      (a.toBitVec, b.toBitVec, c.toBitVec, d.toBitVec, e.toBitVec)

/-- **A step of SHA-1** is a round. -/
theorem sha1Step_round {M : ℕ → BitVec 32} {x : List UInt32} {i : ℕ}
    (regs : Sha1Registers) (h : Window 16 (fun t => ⟨Sha1.W M t⟩) 0 x i) :
    sha1Working (sha1Step (regs, x) i).1
        = Sha1.round (Sha1.W M) (sha1Working regs) i ∧
      Window 16 (fun t => ⟨Sha1.W M t⟩) 0 (sha1Step (regs, x) i).2 (i + 1) := by
  obtain ⟨a, b, c, d, e⟩ := regs
  have hnext := sha1Word_window h
  refine ⟨?_, hnext⟩
  have hword := hnext.entries i (by omega) (by omega)
  simp only [sha1Step, sha1Working, Sha1.round, hword, UInt32.toBitVec_add,
    sha1Round_f, sha1Round_K, rol32_toBitVec a (show 0 < (5 : UInt32).toNat by decide)
      (by decide), rol32_toBitVec b (show 0 < (30 : UInt32).toNat by decide)
      (by decide)]
  congr 1
  show _ = _ + _
  ac_rfl

theorem sha1Steps_rounds {M : ℕ → BitVec 32} {x : List UInt32}
    (regs : Sha1Registers) (h : Window 16 (fun t => ⟨Sha1.W M t⟩) 0 x 0) (m : ℕ) :
    sha1Working ((List.range m).foldl sha1Step (regs, x)).1
      = (List.range m).foldl (Sha1.round (Sha1.W M)) (sha1Working regs) := by
  refine (@foldl_range_rel _ _ sha1Step (Sha1.round (Sha1.W M)) (fun i s v =>
    sha1Working s.1 = v ∧ Window 16 (fun t => ⟨Sha1.W M t⟩) 0 s.2 i)
    (regs, x) _ ⟨rfl, h⟩ m ?_).1
  rintro i - ⟨regs, x⟩ v ⟨rfl, hx⟩
  exact sha1Step_round regs hx

/-! ## SHA-256 -/

namespace Standard.Sha2

variable {w : ℕ} {sha : Sha2 w} {M : ℕ → BitVec w} {t : ℕ}

theorem W_ge (ht : 16 ≤ t) :
    sha.W M t = sha.smallSigma1 (sha.W M (t - 2)) + sha.W M (t - 7)
      + sha.smallSigma0 (sha.W M (t - 15)) + sha.W M (t - 16) := by
  rw [W, if_neg (by omega)]

theorem W_lt (ht : t < 16) : sha.W M t = M t := by
  rw [W, if_pos ht]

end Standard.Sha2

/-- `BLK0(i)` or `BLK2(i)` is the word of the schedule. -/
theorem blk_window {M : ℕ → BitVec 32} {x : List UInt32} {i : ℕ}
    (h : Window 16 (fun t => ⟨sha256.W M t⟩) 0 x i) :
    Window 16 (fun t => ⟨sha256.W M t⟩) 0 (Sha256.blk x i) (i + 1) := by
  by_cases hi : i < 16
  · rw [Sha256.blk, if_pos hi]
    exact h.keep hi
  · have hle : 16 ≤ i := Nat.le_of_not_lt hi
    have hfirst : i % 16 = (i - 16) % 16 := by omega
    have hword : x.getD (i % 16) 0 + (Sha256.s1 (x.getD ((i - 2) % 16) 0)
        + x.getD ((i - 7) % 16) 0 + Sha256.s0 (x.getD ((i - 15) % 16) 0))
        = ⟨sha256.W M i⟩ := by
      rw [hfirst, h.entries (i - 16) (by omega) (by omega),
        h.entries (i - 2) (by omega) (by omega),
        h.entries (i - 7) (by omega) (by omega),
        h.entries (i - 15) (by omega) (by omega)]
      apply UInt32.toBitVec_inj.mp
      rw [Sha2.W_ge hle]
      simp only [UInt32.toBitVec_add, sha256_s1, sha256_s0]
      ac_rfl
    rw [Sha256.blk, if_neg hi, hword]
    exact h.push hle (by decide)

def sha256Working : Sha2Registers UInt32 → Sha2.Working 32
  | (a, b, c, d, e, f, g, h) =>
      (a.toBitVec, b.toBitVec, c.toBitVec, d.toBitVec, e.toBitVec, f.toBitVec,
        g.toBitVec, h.toBitVec)

/-- **A step of SHA-256** is a round. -/
theorem sha256Step_round {M : ℕ → BitVec 32} {x : List UInt32} {i : ℕ}
    (hi : i < 64) (regs : Sha2Registers UInt32)
    (hx : Window 16 (fun t => ⟨sha256.W M t⟩) 0 x i) :
    sha256Working (Sha256.r (regs, x) i).1
        = sha256.round (Sha2.K 32) (sha256.W M) (sha256Working regs) i ∧
      Window 16 (fun t => ⟨sha256.W M t⟩) 0 (Sha256.r (regs, x) i).2 (i + 1) := by
  obtain ⟨a, b, c, d, e, f, g, h⟩ := regs
  have hnext := blk_window hx
  refine ⟨?_, hnext⟩
  have hword := hnext.entries i (by omega) (by omega)
  have hch : (ch e f g).toBitVec = Ch e.toBitVec f.toBitVec g.toBitVec :=
    Ch_eq _ _ _
  have hma : (ma a b c).toBitVec = Maj a.toBitVec b.toBitVec c.toBitVec :=
    Maj_eq _ _ _
  simp only [Sha256.r, sha256Working, Sha2.round, hword, UInt32.toBitVec_add,
    sha256_S0, sha256_S1, hch, hma, k256_eq hi]
  congr 1
  · ac_rfl
  · congr 4
    ac_rfl

theorem sha256Steps_rounds {M : ℕ → BitVec 32} {x : List UInt32}
    (regs : Sha2Registers UInt32)
    (h : Window 16 (fun t => ⟨sha256.W M t⟩) 0 x 0) :
    sha256Working ((List.range 64).foldl Sha256.r (regs, x)).1
      = (List.range 64).foldl (sha256.round (Sha2.K 32) (sha256.W M))
        (sha256Working regs) := by
  refine (@foldl_range_rel _ _ Sha256.r (sha256.round (Sha2.K 32) (sha256.W M))
    (fun i s v => sha256Working s.1 = v ∧
      Window 16 (fun t => ⟨sha256.W M t⟩) 0 s.2 i) (regs, x) _ ⟨rfl, h⟩ 64 ?_).1
  rintro i hi ⟨regs, x⟩ v ⟨rfl, hx⟩
  exact sha256Step_round hi regs hx

/-! ## SHA-512 -/

theorem readSwap64_word (data : List UInt8) (t : ℕ) :
    readSwap64 ((data.drop (8 * t)).take 8) = ⟨blockWord bigEndian 8 data t⟩ := by
  rw [readSwap64, leValue_reverse]
  rfl

theorem schedule_eq (data : List UInt8) : ∀ m : ℕ,
    (List.range m).foldl (Sha512.schedule data) []
      = (List.range m).map fun t =>
          (⟨sha512.W (blockWord bigEndian 8 data) t⟩ : UInt64)
  | 0 => rfl
  | m + 1 => by
      have hget (t : ℕ) (ht : t < m) : ((List.range m).map fun t =>
          (⟨sha512.W (blockWord bigEndian 8 data) t⟩ : UInt64)).getD t 0
          = ⟨sha512.W (blockWord bigEndian 8 data) t⟩ := by
        simp [List.getD_eq_getElem?_getD, ht]
      simp only [List.range_succ, List.foldl_append, List.foldl_cons,
        List.foldl_nil, List.map_append, List.map_cons, List.map_nil]
      rw [schedule_eq data m, Sha512.schedule]
      congr 2
      by_cases hm : m < 16
      · rw [if_pos hm, readSwap64_word, Sha2.W_lt hm]
      · have hle : 16 ≤ m := Nat.le_of_not_lt hm
        rw [if_neg hm, hget _ (by omega), hget _ (by omega), hget _ (by omega),
          hget _ (by omega)]
        apply UInt64.toBitVec_inj.mp
        rw [Sha2.W_ge hle]
        simp only [UInt64.toBitVec_add, sha512_s1, sha512_s0]

def sha512Working : Sha2Registers UInt64 → Sha2.Working 64
  | (a, b, c, d, e, f, g, h) =>
      (a.toBitVec, b.toBitVec, c.toBitVec, d.toBitVec, e.toBitVec, f.toBitVec,
        g.toBitVec, h.toBitVec)

/-- **A step of SHA-512** is a round. -/
theorem sha512Step_round {M : ℕ → BitVec 64} {W : List UInt64} {i : ℕ}
    (hi : i < 80) (regs : Sha2Registers UInt64)
    (hW : W.getD i 0 = ⟨sha512.W M i⟩) :
    sha512Working (Sha512.r W regs i)
      = sha512.round (Sha2.K 64) (sha512.W M) (sha512Working regs) i := by
  obtain ⟨a, b, c, d, e, f, g, h⟩ := regs
  have hch : (ch e f g).toBitVec = Ch e.toBitVec f.toBitVec g.toBitVec :=
    Ch_eq _ _ _
  have hma : (ma a b c).toBitVec = Maj a.toBitVec b.toBitVec c.toBitVec :=
    Maj_eq _ _ _
  simp only [Sha512.r, sha512Working, Sha2.round, hW, UInt64.toBitVec_add,
    sha512_S0, sha512_S1, hch, hma, k512_eq hi]
  congr 1
  · ac_rfl
  · congr 4
    ac_rfl

/-! ## MD5 -/

theorem md5Round_auxiliary (i : ℕ) (x y z : UInt32) :
    (md5Round i x y z).toBitVec
      = Md5.auxiliary i x.toBitVec y.toBitVec z.toBitVec := by
  have hbits (x y z : BitVec 32) :
      z ^^^ (x &&& (y ^^^ z)) = (x &&& y) ||| (~~~x &&& z) := by
    apply BitVec.eq_of_getLsbD_eq
    intro i hi
    simp only [BitVec.getLsbD_xor, BitVec.getLsbD_and, BitVec.getLsbD_or,
      BitVec.getLsbD_not, hi, decide_true, Bool.true_and]
    cases x.getLsbD i <;> cases y.getLsbD i <;> cases z.getLsbD i <;> rfl
  unfold md5Round Md5.auxiliary
  split_ifs
  · exact hbits _ _ _
  · have hch : (ch z x y).toBitVec
        = (z.toBitVec &&& x.toBitVec) ||| (~~~z.toBitVec &&& y.toBitVec) :=
      hbits _ _ _
    rw [hch, BitVec.and_comm z.toBitVec, BitVec.and_comm (~~~z.toBitVec)]
  · rfl
  · rfl

def md5Working : UInt32 × UInt32 × UInt32 × UInt32 → Md5.Working
  | (a, b, c, d) => (a.toBitVec, b.toBitVec, c.toBitVec, d.toBitVec)

/-- **A step of MD5** is an operation. -/
theorem md5Step_operation {X : ℕ → BitVec 32} {x : List UInt32} {i : ℕ}
    (hi : i < 64) (hx : ∀ t < 16, x.getD t 0 = ⟨X t⟩)
    (regs : UInt32 × UInt32 × UInt32 × UInt32) :
    md5Working (md5Step x regs (md5Steps.getD i (0, 0, 0), i))
      = Md5.operation X (md5Working regs) i := by
  obtain ⟨a, b, c, d⟩ := regs
  obtain ⟨hk, hT, hs⟩ := md5Steps_eq hi
  have hshift : ∀ i < 64, 0 < (md5Steps.getD i (0, 0, 0)).2.2.toNat ∧
      (md5Steps.getD i (0, 0, 0)).2.2.toNat < 32 ∧
      (md5Steps.getD i (0, 0, 0)).1 < 16 := by
    decide
  obtain ⟨hpos, hlt, hword⟩ := hshift i hi
  generalize md5Steps.getD i (0, 0, 0) = entry at hk hT hs hpos hlt hword ⊢
  obtain ⟨j, k, s⟩ := entry
  dsimp only at hk hT hs hpos hlt hword
  simp only [md5Step, md5Working, Md5.operation, UInt32.toBitVec_add,
    rol32_toBitVec _ hpos hlt, md5Round_auxiliary, hx j hword, hT, ← hk, ← hs]
  rw [← BitVec.add_assoc, ← BitVec.add_assoc, BitVec.add_comm _ b.toBitVec]

/-! ## The chaining values -/

/-- The first chaining values, as words of the standards -/
def words32 (n : ℕ) (state : List UInt64) : Fin n → BitVec 32 := fun i =>
  (state.getD i 0).toUInt32.toBitVec

def words64 (n : ℕ) (state : List UInt64) : Fin n → BitVec 64 := fun i =>
  (state.getD i 0).toBitVec

/-- The chaining values take the registers word by word. -/
theorem words32_chain {n : ℕ} {state : List UInt64} {registers : List UInt32}
    (hlen : registers.length = n) (hle : n ≤ state.length) (i : Fin n) :
    words32 n (chain state registers) i
      = (registers.getD i 0).toBitVec + words32 n state i := by
  have hi := i.isLt
  have hstate : i < (lowHalves state).length := by
    rw [lowHalves, List.length_map]
    omega
  rw [words32, ← HashType.lowHalves_getD, lowHalves_chain,
    List.getD_append _ _ _ _ (by rw [List.length_zipWith]; omega),
    List.getD_eq_getElem _ _ (by rw [List.length_zipWith]; omega),
    List.getElem_zipWith, UInt32.toBitVec_add, BitVec.add_comm, words32,
    ← HashType.lowHalves_getD, List.getD_eq_getElem _ _ hstate,
    List.getD_eq_getElem _ _ (by omega)]

theorem words64_zipWith {n : ℕ} {state registers : List UInt64}
    (hlen : registers.length = n) (hle : n ≤ state.length) (i : Fin n) :
    words64 n (List.zipWith (· + ·) state registers) i
      = (registers.getD i 0).toBitVec + words64 n state i := by
  have hi := i.isLt
  rw [words64, List.getD_eq_getElem _ _ (by rw [List.length_zipWith]; omega),
    List.getElem_zipWith, UInt64.toBitVec_add, BitVec.add_comm, words64,
    List.getD_eq_getElem _ _ (by omega), List.getD_eq_getElem _ _ (by omega)]

/-! ## The standards -/

/-- What the standard of an algorithm says that a transform makes of the eight
words of the state and a block. -/
def IsCompression : HashType → Transform → Prop
  | .md5, f => ∀ (state : Fin 8 → UInt64) (block : List UInt8),
      words32 4 (f (.ofFn state) block)
        = Md5.compress (words32 4 (.ofFn state)) (blockWord littleEndian 4 block)
  | .sha1, f => ∀ (state : Fin 8 → UInt64) (block : List UInt8),
      words32 5 (f (.ofFn state) block)
        = Sha1.compress (words32 5 (.ofFn state)) (blockWord bigEndian 4 block)
  | .sha256, f => ∀ (state : Fin 8 → UInt64) (block : List UInt8),
      words32 8 (f (.ofFn state) block)
        = sha256.compress (words32 8 (.ofFn state)) (blockWord bigEndian 4 block)
  | .sha512, f => ∀ (state : Fin 8 → UInt64) (block : List UInt8),
      words64 8 (f (.ofFn state) block)
        = sha512.compress (words64 8 (.ofFn state)) (blockWord bigEndian 8 block)

/-- The first chaining values of the standard -/
def IsInitial : HashType → List UInt64 → Prop
  | .md5, state => words32 4 state = Md5.initial
  | .sha1, state => words32 5 state = Sha1.initial
  | .sha256, state => words32 8 state = Sha2.initial 32
  | .sha512, state => words64 8 state = Sha2.initial 64

theorem words32_eq (n : ℕ) (state : List UInt64) (i : Fin n) :
    words32 n state i = ((lowHalves state).getD i 0).toBitVec := by
  rw [words32, HashType.lowHalves_getD]

/-- The window that the block fills at first. -/
theorem readSwap32_window {W : ℕ → BitVec 32} {block : List UInt8}
    (hW : ∀ t < 16, W t = blockWord bigEndian 4 block t) :
    Window 16 (fun t => ⟨W t⟩) 0 ((pieces 4 16 block).map readSwap32) 0 := by
  refine .init (by rw [List.length_map, pieces_length]) fun t ht => ?_
  rw [readSwap32_word block ht, hW t ht]

theorem sha1TransformCc_compress (state : Fin 8 → UInt64) (block : List UInt8) :
    words32 5 (sha1TransformCc (.ofFn state) block)
      = Sha1.compress (words32 5 (.ofFn state)) (blockWord bigEndian 4 block) := by
  set s := lowHalves (.ofFn state) with hs
  set H := words32 5 (.ofFn state) with hH
  have hrounds := sha1Steps_rounds
    (s.getD 0 0, s.getD 1 0, s.getD 2 0, s.getD 3 0, s.getD 4 0)
    (readSwap32_window fun t ht => @Sha1.W_lt (blockWord bigEndian 4 block) t ht) 80
  obtain ⟨⟨⟨a, b, c, d, e⟩, x⟩, hfold⟩ : ∃ r, (List.range 80).foldl sha1Step
      ((s.getD 0 0, s.getD 1 0, s.getD 2 0, s.getD 3 0, s.getD 4 0),
        (pieces 4 16 block).map readSwap32) = r := ⟨_, rfl⟩
  have hregisters : sha1Rounds s block = [a, b, c, d, e] := by
    rw [sha1Rounds, hfold]
  have hvariables : (List.range 80).foldl
      (Sha1.round (Sha1.W (blockWord bigEndian 4 block))) (H 0, H 1, H 2, H 3, H 4)
      = sha1Working (a, b, c, d, e) := by
    rw [hfold] at hrounds
    rw [hrounds]
    simp only [hH, words32_eq]
    rfl
  funext i
  rw [sha1TransformCc, ← hs, hregisters,
    @words32_chain 5 (.ofFn state) [a, b, c, d, e] rfl
      (by rw [List.length_ofFn]; decide), ← hH, Sha1.compress, hvariables]
  fin_cases i <;> rfl

theorem sha256TransformCc_compress (state : Fin 8 → UInt64) (block : List UInt8) :
    words32 8 (sha256TransformCc (.ofFn state) block)
      = sha256.compress (words32 8 (.ofFn state)) (blockWord bigEndian 4 block) := by
  set s := lowHalves (.ofFn state) with hs
  set H := words32 8 (.ofFn state) with hH
  have hrounds := sha256Steps_rounds
    (s.getD 0 0, s.getD 1 0, s.getD 2 0, s.getD 3 0, s.getD 4 0, s.getD 5 0,
      s.getD 6 0, s.getD 7 0)
    (readSwap32_window fun t ht =>
      @Sha2.W_lt 32 sha256 (blockWord bigEndian 4 block) t ht)
  obtain ⟨⟨⟨a, b, c, d, e, f, g, h⟩, x⟩, hfold⟩ : ∃ r,
      (List.range 64).foldl Sha256.r
        ((s.getD 0 0, s.getD 1 0, s.getD 2 0, s.getD 3 0, s.getD 4 0, s.getD 5 0,
          s.getD 6 0, s.getD 7 0), (pieces 4 16 block).map readSwap32) = r :=
    ⟨_, rfl⟩
  have hregisters : sha256Rounds s block = [a, b, c, d, e, f, g, h] := by
    rw [sha256Rounds, hfold]
  have hvariables : (List.range 64).foldl (sha256.round (Sha2.K 32)
      (sha256.W (blockWord bigEndian 4 block)))
      (H 0, H 1, H 2, H 3, H 4, H 5, H 6, H 7)
      = sha256Working (a, b, c, d, e, f, g, h) := by
    rw [hfold] at hrounds
    rw [hrounds]
    simp only [hH, words32_eq]
    rfl
  funext i
  rw [sha256TransformCc, ← hs, hregisters,
    @words32_chain 8 (.ofFn state) [a, b, c, d, e, f, g, h] rfl
      (by rw [List.length_ofFn]), ← hH, Sha2.compress,
    show sha256.rounds = 64 from rfl, hvariables]
  fin_cases i <;> rfl

theorem sha512Transform_compress (state : Fin 8 → UInt64) (block : List UInt8) :
    words64 8 (sha512Transform (.ofFn state) block)
      = sha512.compress (words64 8 (.ofFn state)) (blockWord bigEndian 8 block) := by
  set s : List UInt64 := .ofFn state with hs
  set H := words64 8 s with hH
  set W := (List.range 80).foldl (Sha512.schedule block) [] with hW
  have hword : ∀ i < 80, W.getD i 0 = ⟨sha512.W (blockWord bigEndian 8 block) i⟩ := by
    intro i hi
    rw [hW, schedule_eq, List.getD_eq_getElem?_getD]
    simp [hi]
  have hrounds := @foldl_range_rel _ _ (Sha512.r W)
    (sha512.round (Sha2.K 64) (sha512.W (blockWord bigEndian 8 block)))
    (fun _ regs v => sha512Working regs = v)
    (s.getD 0 0, s.getD 1 0, s.getD 2 0, s.getD 3 0, s.getD 4 0, s.getD 5 0,
      s.getD 6 0, s.getD 7 0) (H 0, H 1, H 2, H 3, H 4, H 5, H 6, H 7) rfl 80
    (by
      rintro i hi regs _ rfl
      exact sha512Step_round hi regs (hword i hi))
  obtain ⟨⟨a, b, c, d, e, f, g, h⟩, hfold⟩ : ∃ r,
      (List.range 80).foldl (Sha512.r W)
        (s.getD 0 0, s.getD 1 0, s.getD 2 0, s.getD 3 0, s.getD 4 0, s.getD 5 0,
          s.getD 6 0, s.getD 7 0) = r := ⟨_, rfl⟩
  rw [hfold] at hrounds
  have htransform : sha512Transform s block
      = List.zipWith (· + ·) s [a, b, c, d, e, f, g, h] := by
    simp only [sha512Transform, ← hW, hfold]
  funext i
  rw [htransform, @words64_zipWith 8 s [a, b, c, d, e, f, g, h] rfl
      (by rw [hs, List.length_ofFn]), ← hH, Sha2.compress,
    show sha512.rounds = 80 from rfl, ← hrounds]
  fin_cases i <;> rfl

theorem md5Transform_compress (state : Fin 8 → UInt64) (block : List UInt8) :
    words32 4 (md5Transform (.ofFn state) block)
      = Md5.compress (words32 4 (.ofFn state)) (blockWord littleEndian 4 block) := by
  set s := lowHalves (.ofFn state) with hs
  set H := words32 4 (.ofFn state) with hH
  set x := (pieces 4 16 block).map fun bytes => UInt32.ofNat (leValue bytes) with hx
  have hword : ∀ t < 16, x.getD t 0 = ⟨blockWord littleEndian 4 block t⟩ := by
    intro t ht
    rw [hx, pieces_getD _ 0 ht, leValue_eq]
    rfl
  have hrounds := @foldl_range_rel _ _
    (fun regs i => md5Step x regs (md5Steps.getD i (0, 0, 0), i))
    (Md5.operation (blockWord littleEndian 4 block))
    (fun _ regs v => md5Working regs = v)
    (s.getD 0 0, s.getD 1 0, s.getD 2 0, s.getD 3 0)
    (md5Working (s.getD 0 0, s.getD 1 0, s.getD 2 0, s.getD 3 0)) rfl 64
    (by
      rintro i hi regs _ rfl
      exact md5Step_operation hi hword regs)
  obtain ⟨⟨a, b, c, d⟩, hfold⟩ : ∃ r, (List.range 64).foldl
      (fun regs i => md5Step x regs (md5Steps.getD i (0, 0, 0), i))
      (s.getD 0 0, s.getD 1 0, s.getD 2 0, s.getD 3 0) = r := ⟨_, rfl⟩
  have hregisters : md5Rounds s block = [a, b, c, d] := by
    rw [md5Rounds, md5Steps_zipIdx, List.foldl_map]
    simp only [← hx, hfold]
  have hvariables : (List.range 64).foldl
      (Md5.operation (blockWord littleEndian 4 block)) (H 0, H 1, H 2, H 3)
      = md5Working (a, b, c, d) := by
    rw [hfold] at hrounds
    rw [hrounds]
    simp only [hH, words32_eq]
    rfl
  funext i
  rw [md5Transform, ← hs, hregisters,
    @words32_chain 4 (.ofFn state) [a, b, c, d] rfl
      (by rw [List.length_ofFn]; decide), ← hH, Md5.compress, hvariables]
  fin_cases i <;> rfl

theorem sha256Init_word (i : Fin 8) :
    words32 8 sha256Init.state i = Sha2.initial 32 i := by
  have hbits : ∀ i < 8, ∃ n < 5,
      RootBits 32 2 (primes.getD i 0) (sha256Init.state.getD i 0).toUInt32.toNat n := by
    decide
  obtain ⟨n, -, hn⟩ := hbits i i.isLt
  rw [Sha2.initial, prime_eq (by omega), rootFraction_eq (by decide) hn, words32]
  generalize (sha256Init.state.getD i 0).toUInt32 = word
  simp

theorem sha512Init_word (i : Fin 8) :
    words64 8 sha512Init.state i = Sha2.initial 64 i := by
  have hbits : ∀ i < 8, ∃ n < 5,
      RootBits 64 2 (primes.getD i 0) (sha512Init.state.getD i 0).toNat n := by
    decide
  obtain ⟨n, -, hn⟩ := hbits i i.isLt
  rw [Sha2.initial, prime_eq (by omega), rootFraction_eq (by decide) hn]
  simp [words64]

theorem hashInit_initial (type : HashType) :
    IsInitial type (hashInit type).state := by
  cases type with
  | md5 =>
      funext i
      fin_cases i <;> rfl
  | sha1 =>
      funext i
      fin_cases i <;> rfl
  | sha256 => exact funext sha256Init_word
  | sha512 => exact funext sha512Init_word

theorem transform_compress (type : HashType) : IsCompression type type.transform := by
  cases type with
  | md5 => exact md5Transform_compress
  | sha1 => exact sha1TransformCc_compress
  | sha256 => exact sha256TransformCc_compress
  | sha512 => exact sha512Transform_compress

/-- **The portable transforms are the standard ones.** The lines of each
transform, as they stand in the source, are the compression function of its
standard on every state and every block; so are the transforms that the digests
of `Streaming` are made of, which are the same functions; and init sets the
initial values. -/
theorem transforms_standard (type : HashType) :
    IsCompression type (linesTransform type) ∧
      linesTransform type = type.transform ∧
      IsInitial type (hashInit type).state := by
  have hlines : linesTransform type = type.transform := by
    funext state data
    exact linesTransform_eq type state data
  exact ⟨hlines ▸ transform_compress type, hlines, hashInit_initial type⟩

end Nawam
