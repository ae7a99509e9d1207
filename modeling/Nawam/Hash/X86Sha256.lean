import Nawam.Hash.StandardTransforms
import Nawam.Hash.X86Programs

/-!
# The accelerated SHA-256

The program of `sha256_transform_x86` against the rounds of the standard, by the
same plan as for SHA-1: sixteen groups of four rounds (`sha256Group`), and what
the vectors hold between them (`Sha256Between`). The variables are in two
vectors, which change places with every two rounds.
-/

namespace Nawam

open Standard

/-! ## The groups -/

/-- Two constants next to each other, as the source writes them -/
def k256Pair (t : ℕ) : BitVec 64 :=
  (k256.getD (t + 1) 0).toBitVec ++ (k256.getD t 0).toBitVec

/-- Rounds `4 * g` to `4 * g + 3` -/
def sha256Group (g : ℕ) : List (Line Sha256Reg) :=
  let m : Fin 4 := .ofNat 4 g
  let load : List (Line Sha256Reg) :=
    if g = 0 then [.loadu .MSG 0, .shuffle8 (.MSGn m) .MSG]
    else if g < 4 then [.loadu (.MSGn m) (16 * g), .shuffle8 (.MSGn m) (.MSGn m)]
    else []
  let last : List (Line Sha256Reg) :=
    if 3 ≤ g ∧ g ≤ 14 then
      [.alignr .TMP (.MSGn m) (.MSGn (m + 3)) 4,
        .add (.MSGn (m + 1)) (.MSGn (m + 1)) .TMP,
        .sha256msg2 (.MSGn (m + 1)) (.MSGn (m + 1)) (.MSGn m)]
    else []
  let first : List (Line Sha256Reg) :=
    if 1 ≤ g ∧ g ≤ 12 then [.sha256msg1 (.MSGn (m + 3)) (.MSGn (m + 3)) (.MSGn m)]
    else []
  load
    ++ [.addSet .MSG (.MSGn m) (k256Pair (4 * g + 2)) (k256Pair (4 * g)),
      .sha256rnds2 .STATE1 .STATE1 .STATE0 .MSG]
    ++ last
    ++ [.shuffle32 .MSG .MSG 0x0E, .sha256rnds2 .STATE0 .STATE0 .STATE1 .MSG]
    ++ first

theorem sha256Program_eq : sha256Program
    = [.move .ABEF_SAVE .STATE0, .move .CDGH_SAVE .STATE1]
      ++ (List.range 16).flatMap sha256Group
      ++ [.add .STATE0 .STATE0 .ABEF_SAVE, .add .STATE1 .STATE1 .CDGH_SAVE] := by
  decide

/-- The registers behind a group, in terms of those before it: the words that
the group takes, and what they are with their constants. -/
structure Sha256Step (g : ℕ) (block : List UInt8) (r r' : Sha256Reg → M128i)
    (words wk : M128i) : Prop where
  words_eq : words = if g < 4 then shuffleEpi8 (loadu block (16 * g)) sha256Mask
    else r (.MSGn (.ofNat 4 g))
  wk_eq : wk = addEpi32 words (setEpi64x (k256Pair (4 * g + 2)) (k256Pair (4 * g)))
  state1 : r' .STATE1 = sha256rnds2 (r .STATE1) (r .STATE0) wk
  state0 : r' .STATE0
    = sha256rnds2 (r .STATE0) (r' .STATE1) (shuffleEpi32 wk 0x0E)
  msg0 : r' (.MSGn (.ofNat 4 g)) = words
  msg1 : r' (.MSGn (.ofNat 4 g + 1)) = if 3 ≤ g ∧ g ≤ 14
    then sha256msg2 (addEpi32 (r (.MSGn (.ofNat 4 g + 1)))
      (alignrEpi8 words (r (.MSGn (.ofNat 4 g + 3))) 4)) words
    else r (.MSGn (.ofNat 4 g + 1))
  msg2 : r' (.MSGn (.ofNat 4 g + 2)) = r (.MSGn (.ofNat 4 g + 2))
  msg3 : r' (.MSGn (.ofNat 4 g + 3)) = if 1 ≤ g ∧ g ≤ 12
    then sha256msg1 (r (.MSGn (.ofNat 4 g + 3))) words
    else r (.MSGn (.ofNat 4 g + 3))
  abef_save : r' .ABEF_SAVE = r .ABEF_SAVE
  cdgh_save : r' .CDGH_SAVE = r .CDGH_SAVE

theorem sha256Group_step (g : ℕ) (block : List UInt8) (r : Sha256Reg → M128i) :
    ∃ words wk, Sha256Step g block r
      (runProgram sha256Mask (sha256Group g) block r) words wk := by
  have hfour := fin_four_ne (Fin.ofNat 4 g)
  simp only [sha256Group, runProgram_append]
  generalize hm : Fin.ofNat 4 g = m at hfour ⊢
  -- the load of the words, if there is one
  generalize hr1 : runProgram sha256Mask (if g = 0 then _ else _) block r = r1
  have hwords : r1 (.MSGn m) = if g < 4 then shuffleEpi8 (loadu block (16 * g)) sha256Mask
      else r (.MSGn m) := by
    rw [← hr1]
    split_ifs with hzero hfew hfew
    · rw [hzero]
      simp only [runProgram_cons, runProgram_nil, Line.run, Function.update_self]
    · omega
    · simp only [runProgram_cons, runProgram_nil, Line.run, Function.update_self]
    · rfl
  have hframe1 : ∀ x, x ≠ .MSG → x ≠ .MSGn m → r1 x = r x := by
    intro x hx hx'
    rw [← hr1]
    split_ifs
    · simp only [runProgram_cons, runProgram_nil, Line.run, Function.update_of_ne hx,
        Function.update_of_ne hx']
    · simp only [runProgram_cons, runProgram_nil, Line.run, Function.update_of_ne hx']
    · rfl
  -- the first two rounds
  generalize hr2 : runProgram sha256Mask [.addSet .MSG _ _ _, .sha256rnds2 _ _ _ _] block r1 = r2
  have hmsg2 : r2 .MSG = addEpi32 (r1 (.MSGn m))
      (setEpi64x (k256Pair (4 * g + 2)) (k256Pair (4 * g))) := by
    rw [← hr2]
    rfl
  have hstate2 : r2 .STATE1 = sha256rnds2 (r1 .STATE1) (r1 .STATE0) (r2 .MSG) := by
    rw [← hr2]
    rfl
  have hframe2 : ∀ x, x ≠ .MSG → x ≠ .STATE1 → r2 x = r1 x := by
    intro x hx hx'
    rw [← hr2]
    simp only [runProgram_cons, runProgram_nil, Line.run, Function.update_of_ne hx,
      Function.update_of_ne hx']
  -- the words that come next are made ready
  generalize hr3 : runProgram sha256Mask (if 3 ≤ g ∧ g ≤ 14 then _ else _) block r2 = r3
  have hmsgs3 : r3 (.MSGn (m + 1)) = if 3 ≤ g ∧ g ≤ 14
      then sha256msg2 (addEpi32 (r2 (.MSGn (m + 1)))
        (alignrEpi8 (r2 (.MSGn m)) (r2 (.MSGn (m + 3))) 4)) (r2 (.MSGn m))
      else r2 (.MSGn (m + 1)) := by
    rw [← hr3]
    split_ifs
    · simp [runProgram_cons, runProgram_nil, Line.run, hfour]
    · rfl
  have hframe3 : ∀ x, x ≠ .TMP → x ≠ .MSGn (m + 1) → r3 x = r2 x := by
    intro x hx hx'
    rw [← hr3]
    split_ifs
    · simp only [runProgram_cons, runProgram_nil, Line.run, Function.update_of_ne hx,
        Function.update_of_ne hx']
    · rfl
  -- the second two rounds
  generalize hr4 : runProgram sha256Mask [.shuffle32 .MSG _ _, .sha256rnds2 _ _ _ _] block r3 = r4
  have hstate4 : r4 .STATE0 =
      sha256rnds2 (r3 .STATE0) (r3 .STATE1) (shuffleEpi32 (r3 .MSG) 0x0E) := by
    rw [← hr4]
    rfl
  have hframe4 : ∀ x, x ≠ .MSG → x ≠ .STATE0 → r4 x = r3 x := by
    intro x hx hx'
    rw [← hr4]
    simp only [runProgram_cons, runProgram_nil, Line.run, Function.update_of_ne hx,
      Function.update_of_ne hx']
  generalize hr5 : runProgram sha256Mask (if 1 ≤ g ∧ g ≤ 12 then _ else _) block r4 = r5
  have hmsgs5 : r5 (.MSGn (m + 3)) = if 1 ≤ g ∧ g ≤ 12
      then sha256msg1 (r4 (.MSGn (m + 3))) (r4 (.MSGn m)) else r4 (.MSGn (m + 3)) := by
    rw [← hr5]
    split_ifs
    · simp only [runProgram_cons, runProgram_nil, Line.run, Function.update_self]
    · rfl
  have hframe5 : ∀ x, x ≠ .MSGn (m + 3) → r5 x = r4 x := by
    intro x hx
    rw [← hr5]
    split_ifs
    · simp only [runProgram_cons, runProgram_nil, Line.run, Function.update_of_ne hx]
    · rfl
  refine ⟨r1 (.MSGn m), r2 .MSG, ?_⟩
  constructor
  · rw [hm]
    exact hwords
  · exact hmsg2
  · rw [hframe5 _ (by simp), hframe4 _ (by simp) (by simp), hframe3 _ (by simp) (by simp), hstate2,
      hframe1 _ (by simp) (by simp), hframe1 _ (by simp) (by simp)]
  · rw [hframe5 _ (by simp), hframe5 _ (by simp), hstate4, hframe4 .STATE1 (by simp) (by simp),
      hframe3 .STATE0 (by simp) (by simp), hframe3 .MSG (by simp) (by simp),
      hframe2 .STATE0 (by simp) (by simp), hframe1 .STATE0 (by simp) (by simp)]
  · rw [hm, hframe5 _ (by simp [hfour]), hframe4 _ (by simp) (by simp),
      hframe3 _ (by simp) (by simp [hfour]), hframe2 _ (by simp) (by simp)]
  · rw [hm, hframe5 _ (by simp [hfour]), hframe4 _ (by simp) (by simp), hmsgs3,
      hframe2 _ (by simp) (by simp), hframe2 _ (by simp) (by simp),
      hframe2 _ (by simp) (by simp), hframe1 (.MSGn (m + 1)) (by simp) (by simp [hfour]),
      hframe1 (.MSGn (m + 3)) (by simp) (by simp [hfour])]
  · rw [hm, hframe5 _ (by simp [hfour]), hframe4 _ (by simp) (by simp),
      hframe3 _ (by simp) (by simp [hfour]), hframe2 _ (by simp) (by simp),
      hframe1 _ (by simp) (by simp [hfour])]
  · rw [hm, hmsgs5, hframe4 _ (by simp) (by simp), hframe4 _ (by simp) (by simp),
      hframe3 _ (by simp) (by simp [hfour]), hframe3 _ (by simp) (by simp [hfour]),
      hframe2 _ (by simp) (by simp), hframe2 _ (by simp) (by simp),
      hframe1 _ (by simp) (by simp [hfour])]
  · rw [hframe5 _ (by simp), hframe4 _ (by simp) (by simp), hframe3 _ (by simp) (by simp),
      hframe2 _ (by simp) (by simp), hframe1 _ (by simp) (by simp)]
  · rw [hframe5 _ (by simp), hframe4 _ (by simp) (by simp), hframe3 _ (by simp) (by simp),
      hframe2 _ (by simp) (by simp), hframe1 _ (by simp) (by simp)]

/-! ## The words -/

/-- Four words of the schedule, the first one below -/
def sha256Quad (W : ℕ → BitVec 32) (t : ℕ) : M128i :=
  ⟨W t, W (t + 1), W (t + 2), W (t + 3)⟩

/-- Four words of the block, as they are loaded. -/
theorem load_sha256Quad {block : List UInt8} (hblock : block.length = 64) {g : ℕ}
    (hg : g < 4) : shuffleEpi8 (loadu block (16 * g)) sha256Mask
      = sha256Quad (blockWord bigEndian 4 block) (4 * g) := by
  have hmask : ∀ i < 16, sha256Mask.byte i = BitVec.ofNat 8 (i / 4 * 4 + (3 - i % 4)) := by
    decide
  have hlow : ∀ i < 16, (BitVec.ofNat 8 (i / 4 * 4 + (3 - i % 4))).msb = false ∧
      (BitVec.ofNat 8 (i / 4 * 4 + (3 - i % 4))).toNat % 16
        = i / 4 * 4 + (3 - i % 4) := by decide
  have hbytes : shuffleEpi8 (loadu block (16 * g)) sha256Mask
      = .ofBytes fun i =>
        (block.getD (16 * g + (i / 4 * 4 + (3 - i % 4))) 0).toBitVec := by
    refine M128i.ofBytes_congr fun i hi => ?_
    rw [hmask i hi, (hlow i hi).1, (hlow i hi).2]
    exact M128i.byte_ofBytes _ (by omega)
  have hword (k : ℕ) (hk : k < 4) :
      blockWord bigEndian 4 block (4 * g + k)
        = (block.getD (16 * g + 4 * k) 0).toBitVec
          ++ (block.getD (16 * g + 4 * k + 1) 0).toBitVec
          ++ (block.getD (16 * g + 4 * k + 2) 0).toBitVec
          ++ (block.getD (16 * g + 4 * k + 3) 0).toBitVec := by
    rw [blockWord_bytes (by omega), show 4 * (4 * g + k) = 16 * g + 4 * k by omega]
  rw [hbytes, sha256Quad, hword 3 (by decide), hword 2 (by decide),
    hword 1 (by decide), ← Nat.add_zero (4 * g), hword 0 (by decide)]
  rfl

/-- The word `t + 16` in the order in which the vectors have it -/
theorem Standard.sha256_W_add {M : ℕ → BitVec 32} (t : ℕ) :
    sha256.W M t + sha256.smallSigma0 (sha256.W M (t + 1)) + sha256.W M (t + 9)
      + sha256.smallSigma1 (sha256.W M (t + 14)) = sha256.W M (t + 16) := by
  rw [@Sha2.W_ge 32 sha256 M _ (Nat.le_add_left 16 t), Nat.add_sub_cancel]
  simp only [Nat.reduceSubDiff]
  ac_rfl

/-- What becomes of four words on the way through the schedule. -/
theorem sha256msg2_quad {M : ℕ → BitVec 32} (t : ℕ) :
    sha256msg2 (addEpi32
      (sha256msg1 (sha256Quad (sha256.W M) t) (sha256Quad (sha256.W M) (t + 4)))
      (alignrEpi8 (sha256Quad (sha256.W M) (t + 12))
        (sha256Quad (sha256.W M) (t + 8)) 4)) (sha256Quad (sha256.W M) (t + 12))
      = sha256Quad (sha256.W M) (t + 16) := by
  have h16 := @sha256_W_add M t
  have h17 := @sha256_W_add M (t + 1)
  have h18 := @sha256_W_add M (t + 2)
  have h19 := @sha256_W_add M (t + 3)
  simp only [Nat.add_assoc, Nat.reduceAdd] at h16 h17 h18 h19
  rw [alignrEpi8_four]
  simp only [sha256msg2, addEpi32, sha256msg1, sha256Quad, Nat.add_assoc,
    Nat.reduceAdd]
  rw [h16, h17, h18, h19]

theorem setEpi64x_append (a b c d : BitVec 32) :
    setEpi64x (d ++ c) (b ++ a) = ⟨a, b, c, d⟩ := by
  have hhalves (x y : BitVec 32) : (y ++ x).extractLsb' 0 32 = x ∧
      (y ++ x).extractLsb' 32 32 = y := by
    constructor
    all_goals
      apply BitVec.eq_of_getLsbD_eq
      intro k hk
      simp only [BitVec.getLsbD_extractLsb', BitVec.getLsbD_append, hk, decide_true,
        Bool.true_and]
      grind
  rw [setEpi64x, (hhalves a b).1, (hhalves a b).2, (hhalves c d).1, (hhalves c d).2]

theorem addEpi32_k256 {W : ℕ → BitVec 32} {g : ℕ} (hg : g < 16) :
    addEpi32 (sha256Quad W (4 * g))
        (setEpi64x (k256Pair (4 * g + 2)) (k256Pair (4 * g)))
      = sha256Quad (fun t => W t + Sha2.K 32 t) (4 * g) := by
  rw [k256Pair, k256Pair, setEpi64x_append, k256_eq (by omega), k256_eq (by omega),
    k256_eq (by omega), k256_eq (by omega)]
  rfl

/-! ## The rounds -/

/-- The working variables behind `t` rounds -/
noncomputable def sha256Variables (H : Sha2.Working 32) (M : ℕ → BitVec 32)
    (t : ℕ) : Sha2.Working 32 :=
  (List.range t).foldl (sha256.round (Sha2.K 32) (sha256.W M)) H

theorem sha256Variables_succ (H : Sha2.Working 32) (M : ℕ → BitVec 32) (t : ℕ) :
    sha256Variables H M (t + 1)
      = sha256.round (Sha2.K 32) (sha256.W M) (sha256Variables H M t) t := by
  rw [sha256Variables, List.range_succ, List.foldl_append]
  rfl

/-- `a`, `b`, `e` and `f` as they are in a vector -/
def abefVector : Sha2.Working 32 → M128i
  | (a, b, _, _, e, f, _, _) => ⟨f, e, b, a⟩

/-- `c`, `d`, `g` and `h` -/
def cdghVector : Sha2.Working 32 → M128i
  | (_, _, c, d, _, _, g, h) => ⟨h, g, d, c⟩

/-- **Two rounds**: what was in one vector is what the other one is to hold. -/
theorem sha256rnds2_rounds (H : Sha2.Working 32) (M : ℕ → BitVec 32) (t : ℕ)
    {wk : M128i} (h0 : wk.d0 = sha256.W M t + Sha2.K 32 t)
    (h1 : wk.d1 = sha256.W M (t + 1) + Sha2.K 32 (t + 1)) :
    sha256rnds2 (cdghVector (sha256Variables H M t))
        (abefVector (sha256Variables H M t)) wk
      = abefVector (sha256Variables H M (t + 2)) ∧
    abefVector (sha256Variables H M t) = cdghVector (sha256Variables H M (t + 2)) := by
  rw [sha256Variables_succ, sha256Variables_succ]
  generalize sha256Variables H M t = v
  obtain ⟨a, b, c, d, e, f, g, h⟩ := v
  refine ⟨?_, rfl⟩
  simp only [sha256rnds2, cdghVector, abefVector, Sha2.round, h0, h1]
  generalize sha256.W M t = W₀, Sha2.K 32 t = K₀, sha256.W M (t + 1) = W₁,
    Sha2.K 32 (t + 1) = K₁
  -- the sums of the intrinsic in the order of the standard
  have ha (ch s wk h ma s' K W : BitVec 32) (hwk : wk = W + K) :
      ch + s + wk + h + ma + s' = h + s + ch + K + W + (s' + ma) := by
    subst hwk
    ac_rfl
  have he (ch s wk h d K W : BitVec 32) (hwk : wk = W + K) :
      ch + s + wk + h + d = d + (h + s + ch + K + W) := by
    subst hwk
    ac_rfl
  rw [ha (Ch e f g) _ _ h _ _ K₀ W₀ rfl, he (Ch e f g) _ _ h d K₀ W₀ rfl]
  rw [ha (Ch _ e f) _ _ g _ _ K₁ W₁ rfl, he (Ch _ e f) _ _ g c K₁ W₁ rfl]

/-! ## Between the groups -/

/-- What the vectors hold before the group `g`, of a block with the words `M`
and of the variables `H`: the words that the next groups take are at different
places on their way, as they are in SHA-1. -/
structure Sha256Between (H : Sha2.Working 32) (M : ℕ → BitVec 32) (g : ℕ)
    (r : Sha256Reg → M128i) : Prop where
  state0 : r .STATE0 = abefVector (sha256Variables H M (4 * g))
  state1 : r .STATE1 = cdghVector (sha256Variables H M (4 * g))
  msg0 : 4 ≤ g → g ≤ 15 → r (.MSGn (.ofNat 4 g)) = sha256Quad (sha256.W M) (4 * g)
  msg1 : 3 ≤ g → g ≤ 14 → r (.MSGn (.ofNat 4 g + 1))
    = sha256msg1 (sha256Quad (sha256.W M) (4 * (g - 3)))
      (sha256Quad (sha256.W M) (4 * (g - 3) + 4))
  msg2 : 2 ≤ g → g ≤ 13 → r (.MSGn (.ofNat 4 g + 2))
    = sha256msg1 (sha256Quad (sha256.W M) (4 * (g - 2)))
      (sha256Quad (sha256.W M) (4 * (g - 2) + 4))
  msg3 : 1 ≤ g → g ≤ 14 → r (.MSGn (.ofNat 4 g + 3))
    = sha256Quad (sha256.W M) (4 * (g - 1))

/-- **A group** leads from one state between groups to the next one. -/
theorem sha256Group_between {H : Sha2.Working 32} {block : List UInt8}
    (hblock : block.length = 64) {g : ℕ} (hg : g < 16) {r : Sha256Reg → M128i}
    (h : Sha256Between H (blockWord bigEndian 4 block) g r) :
    let r' := runProgram sha256Mask (sha256Group g) block r
    Sha256Between H (blockWord bigEndian 4 block) (g + 1) r' ∧
      r' .ABEF_SAVE = r .ABEF_SAVE ∧ r' .CDGH_SAVE = r .CDGH_SAVE := by
  intro r'
  set M := blockWord bigEndian 4 block with hM
  obtain ⟨words, wk, hstep⟩ : ∃ words wk, Sha256Step g block r r' words wk :=
    sha256Group_step g block r
  have hround := fin_four_round (Fin.ofNat 4 g)
  -- the words of the group
  have hwords : words = sha256Quad (sha256.W M) (4 * g) := by
    rw [hstep.words_eq]
    by_cases hload : g < 4
    · have hquad : sha256Quad M (4 * g) = sha256Quad (sha256.W M) (4 * g) := by
        simp only [sha256Quad]
        rw [Sha2.W_lt (by omega), Sha2.W_lt (by omega), Sha2.W_lt (by omega),
          Sha2.W_lt (by omega)]
      rw [if_pos hload, load_sha256Quad hblock hload, ← hM, hquad]
    · rw [if_neg hload, h.msg0 (by omega) (by omega)]
  have hwk : wk = sha256Quad (fun t => sha256.W M t + Sha2.K 32 t) (4 * g) := by
    rw [hstep.wk_eq, hwords, addEpi32_k256 hg]
  -- the first two rounds, and the two behind them
  obtain ⟨hfirst, hswap⟩ := @sha256rnds2_rounds H M (4 * g) wk
    (by rw [hwk, sha256Quad]) (by rw [hwk, sha256Quad])
  obtain ⟨hsecond, hback⟩ := @sha256rnds2_rounds H M (4 * g + 2) (shuffleEpi32 wk 0x0E)
    (by rw [hwk]; rfl) (by rw [hwk]; rfl)
  have hstate1 : r' .STATE1 = abefVector (sha256Variables H M (4 * g + 2)) := by
    rw [hstep.state1, h.state0, h.state1, hfirst]
  refine ⟨.mk ?state0 ?state1 ?msg0 ?msg1 ?msg2 ?msg3, hstep.abef_save,
    hstep.cdgh_save⟩
  case state0 =>
      rw [hstep.state0, hstate1, h.state0, hswap, hsecond]
      rfl
  case state1 =>
      rw [hstate1, hback]
      rfl
  case msg0 =>
      intro h4 h15
      rw [ofNat_four_succ, hstep.msg1, if_pos (by omega), hwords,
        h.msg1 (by omega) (by omega), h.msg3 (by omega) (by omega)]
      have hquad := @sha256msg2_quad M (4 * (g - 3))
      rwa [show 4 * (g - 3) + 12 = 4 * g by omega,
        show 4 * (g - 3) + 8 = 4 * (g - 1) by omega,
        show 4 * (g - 3) + 16 = 4 * (g + 1) by omega] at hquad
  case msg1 =>
      intro h3 h14
      rw [ofNat_four_succ, hround.1, hstep.msg2, h.msg2 (by omega) (by omega),
        show g + 1 - 3 = g - 2 by omega]
  case msg2 =>
      intro h2 h13
      rw [ofNat_four_succ, hround.2.1, hstep.msg3, if_pos (by omega), hwords,
        h.msg3 (by omega) (by omega), show g + 1 - 2 = g - 1 by omega,
        show 4 * (g - 1) + 4 = 4 * g by omega]
  case msg3 =>
      intro _ _
      rw [ofNat_four_succ, hround.2.2, hstep.msg0, hwords, Nat.add_sub_cancel]

theorem sha256Groups_between {H : Sha2.Working 32} {block : List UInt8}
    (hblock : block.length = 64) {r : Sha256Reg → M128i}
    (h : Sha256Between H (blockWord bigEndian 4 block) 0 r) : ∀ n ≤ 16,
    ∃ r', runProgram sha256Mask ((List.range n).flatMap sha256Group) block r = r' ∧
      Sha256Between H (blockWord bigEndian 4 block) n r' ∧
      r' .ABEF_SAVE = r .ABEF_SAVE ∧ r' .CDGH_SAVE = r .CDGH_SAVE
  | 0, _ => ⟨r, rfl, h, rfl, rfl⟩
  | n + 1, hn => by
      obtain ⟨r₁, hrun, hbetween, habef, hcdgh⟩ :=
        sha256Groups_between hblock h n (by omega)
      obtain ⟨hnext, habef', hcdgh'⟩ :=
        sha256Group_between hblock (Nat.lt_of_succ_le hn) hbetween
      rw [List.range_succ, List.flatMap_append, List.flatMap_singleton,
        runProgram_append, hrun]
      exact ⟨_, rfl, hnext, habef'.trans habef, hcdgh'.trans hcdgh⟩

/-- **The program** takes the variables of a block on through its sixty-four
rounds and adds them up. -/
theorem sha256Program_run {H : Sha2.Working 32} {block : List UInt8}
    (hblock : block.length = 64) {r : Sha256Reg → M128i}
    (h0 : r .STATE0 = abefVector H) (h1 : r .STATE1 = cdghVector H) :
    let r' := runProgram sha256Mask sha256Program block r
    let v := sha256Variables H (blockWord bigEndian 4 block) 64
    r' .STATE0 = addEpi32 (abefVector v) (abefVector H) ∧
      r' .STATE1 = addEpi32 (cdghVector v) (cdghVector H) := by
  intro r' v
  -- the registers behind the saves
  set r₀ : Sha256Reg → M128i := Function.update
    (Function.update r .ABEF_SAVE (r .STATE0)) .CDGH_SAVE (r .STATE1)
  have hstart : Sha256Between H (blockWord bigEndian 4 block) 0 r₀ := by
    refine ⟨h0, h1, fun h => ?_, fun h => ?_, fun h => ?_, fun h => ?_⟩
    all_goals exact absurd h (by decide)
  obtain ⟨r₁, hgroups, hbetween, habef, hcdgh⟩ :=
    sha256Groups_between hblock hstart 16 le_rfl
  have hrun : r' = runProgram sha256Mask
      [.add .STATE0 .STATE0 .ABEF_SAVE, .add .STATE1 .STATE1 .CDGH_SAVE] block r₁ := by
    rw [← hgroups]
    show runProgram sha256Mask sha256Program block r = _
    rw [sha256Program_eq, runProgram_append, runProgram_append]
    rfl
  rw [hrun]
  constructor
  · show addEpi32 (r₁ .STATE0) (r₁ .ABEF_SAVE) = _
    rw [hbetween.state0, habef]
    exact congrArg (addEpi32 _) h0
  · show addEpi32 (r₁ .STATE1) (r₁ .CDGH_SAVE) = _
    rw [hbetween.state1, hcdgh]
    exact congrArg (addEpi32 _) h1

end Nawam
