import Nawam.Hash.StandardTransforms
import Nawam.Hash.X86Programs

/-!
# The accelerated SHA-1

The program of `sha1_transform_x86` against the rounds of the standard. It is
twenty groups of four rounds, of which each takes four words out of one vector
and has others further on their way through the message schedule (`sha1Group`).
What the vectors hold between the groups is `Sha1Between`.
-/

namespace Nawam

open Standard

/-! ## The groups -/

/-- Rounds `4 * g` to `4 * g + 3` -/
def sha1Group (g : ℕ) : List (Line Sha1Reg) :=
  let e : Fin 2 := .ofNat 2 g
  let m : Fin 4 := .ofNat 4 g
  let load : List (Line Sha1Reg) :=
    if g < 4 then [.loadu (.MSG m) (16 * g), .shuffle8 (.MSG m) (.MSG m)] else []
  let add : List (Line Sha1Reg) :=
    if g = 0 then [.add (.E e) (.E e) (.MSG m)] else [.sha1nexte (.E e) (.E e) (.MSG m)]
  let last : List (Line Sha1Reg) :=
    if 3 ≤ g ∧ g ≤ 18 then [.sha1msg2 (.MSG (m + 1)) (.MSG (m + 1)) (.MSG m)] else []
  let first : List (Line Sha1Reg) :=
    if 1 ≤ g ∧ g ≤ 16 then [.sha1msg1 (.MSG (m + 3)) (.MSG (m + 3)) (.MSG m)] else []
  let second : List (Line Sha1Reg) :=
    if 2 ≤ g ∧ g ≤ 17 then [.xor (.MSG (m + 2)) (.MSG (m + 2)) (.MSG m)] else []
  load ++ add ++ [.move (.E (e + 1)) .ABCD] ++ last
    ++ [.sha1rnds4 .ABCD .ABCD (.E e) (g / 5)] ++ first ++ second

theorem sha1Program_eq : sha1Program
    = [.move .ABCD_SAVE .ABCD, .move .E0_SAVE (.E 0)]
      ++ (List.range 20).flatMap sha1Group
      ++ [.sha1nexte (.E 0) (.E 0) .E0_SAVE, .add .ABCD .ABCD .ABCD_SAVE] := by
  decide

/-- The registers behind a group, in terms of those before it: the words that
the group takes, and what its `E` is when the rounds find it there. -/
structure Sha1Step (g : ℕ) (block : List UInt8) (r r' : Sha1Reg → M128i)
    (words x : M128i) : Prop where
  words_eq : words = if g < 4 then shuffleEpi8 (loadu block (16 * g)) sha1Mask
    else r (.MSG (.ofNat 4 g))
  x_eq : x = if g = 0 then addEpi32 (r (.E (.ofNat 2 g))) words
    else sha1nexte (r (.E (.ofNat 2 g))) words
  abcd : r' .ABCD = sha1rnds4 (r .ABCD) x (g / 5)
  e : r' (.E (.ofNat 2 g + 1)) = r .ABCD
  msg0 : r' (.MSG (.ofNat 4 g)) = words
  msg1 : r' (.MSG (.ofNat 4 g + 1)) = if 3 ≤ g ∧ g ≤ 18
    then sha1msg2 (r (.MSG (.ofNat 4 g + 1))) words else r (.MSG (.ofNat 4 g + 1))
  msg2 : r' (.MSG (.ofNat 4 g + 2)) = if 2 ≤ g ∧ g ≤ 17
    then xorSi128 (r (.MSG (.ofNat 4 g + 2))) words else r (.MSG (.ofNat 4 g + 2))
  msg3 : r' (.MSG (.ofNat 4 g + 3)) = if 1 ≤ g ∧ g ≤ 16
    then sha1msg1 (r (.MSG (.ofNat 4 g + 3))) words else r (.MSG (.ofNat 4 g + 3))
  abcd_save : r' .ABCD_SAVE = r .ABCD_SAVE
  e0_save : r' .E0_SAVE = r .E0_SAVE

theorem fin_two_ne (e : Fin 2) : e + 1 ≠ e ∧ e ≠ e + 1 := by
  revert e
  decide

theorem sha1Group_step (g : ℕ) (block : List UInt8) (r : Sha1Reg → M128i) :
    ∃ words x,
      Sha1Step g block r (runProgram sha1Mask (sha1Group g) block r) words x := by
  have hfour := fin_four_ne (Fin.ofNat 4 g)
  have htwo := fin_two_ne (Fin.ofNat 2 g)
  refine ⟨_, _, rfl, rfl, ?_, ?_, ?_, ?_, ?_, ?_, ?_, ?_⟩
  all_goals
    simp only [sha1Group, runProgram_append, runProgram_ite, runProgram_cons,
      runProgram_nil, Line.run]
    generalize Fin.ofNat 4 g = m at hfour ⊢
    generalize Fin.ofNat 2 g = e at htwo ⊢
    simp [ite_apply, hfour, htwo]

/-! ## The words -/

/-- Four words of the schedule, the first one on top -/
def sha1Quad (W : ℕ → BitVec 32) (t : ℕ) : M128i :=
  ⟨W (t + 3), W (t + 2), W (t + 1), W t⟩

/-- Four words of the block, as they are loaded. -/
theorem load_sha1Quad {block : List UInt8} (hblock : block.length = 64) {g : ℕ}
    (hg : g < 4) : shuffleEpi8 (loadu block (16 * g)) sha1Mask
      = sha1Quad (blockWord bigEndian 4 block) (4 * g) := by
  have hmask : ∀ i < 16, sha1Mask.byte i = BitVec.ofNat 8 (15 - i) := by decide
  have hlow : ∀ i < 16, (BitVec.ofNat 8 (15 - i)).msb = false ∧
      (BitVec.ofNat 8 (15 - i)).toNat % 16 = 15 - i := by decide
  have hbytes : shuffleEpi8 (loadu block (16 * g)) sha1Mask
      = .ofBytes fun i => (block.getD (16 * g + (15 - i)) 0).toBitVec := by
    refine M128i.ofBytes_congr fun i hi => ?_
    rw [hmask i hi, (hlow i hi).1, (hlow i hi).2]
    exact M128i.byte_ofBytes _ (by omega)
  have hword (k : ℕ) (hk : k < 4) :
      blockWord bigEndian 4 block (4 * g + k)
        = (block.getD (16 * g + 4 * k) 0).toBitVec
          ++ (block.getD (16 * g + 4 * k + 1) 0).toBitVec
          ++ (block.getD (16 * g + 4 * k + 2) 0).toBitVec
          ++ (block.getD (16 * g + 4 * k + 3) 0).toBitVec := by
    rw [blockWord_bytes (by omega), show 4 * (4 * g + k) = 16 * g + 4 * k by omega]
  rw [hbytes, sha1Quad, hword 3 (by decide), hword 2 (by decide),
    hword 1 (by decide), ← Nat.add_zero (4 * g), hword 0 (by decide)]
  rfl

/-- The word `t + 16` in the order in which the vectors have it -/
theorem Standard.Sha1.W_add {M : ℕ → BitVec 32} (t : ℕ) :
    (Sha1.W M (t + 2) ^^^ Sha1.W M t ^^^ Sha1.W M (t + 8)
      ^^^ Sha1.W M (t + 13)).rotateLeft 1 = Sha1.W M (t + 16) := by
  rw [Sha1.W_ge (Nat.le_add_left 16 t), Nat.add_sub_cancel]
  simp only [Nat.reduceSubDiff]
  congr 1
  ac_rfl

/-- What becomes of four words on the way through the schedule. -/
theorem sha1msg2_quad {M : ℕ → BitVec 32} (t : ℕ) :
    sha1msg2 (xorSi128 (sha1msg1 (sha1Quad (Sha1.W M) t) (sha1Quad (Sha1.W M) (t + 4)))
      (sha1Quad (Sha1.W M) (t + 8))) (sha1Quad (Sha1.W M) (t + 12))
      = sha1Quad (Sha1.W M) (t + 16) := by
  have h16 := @Sha1.W_add M t
  have h17 := @Sha1.W_add M (t + 1)
  have h18 := @Sha1.W_add M (t + 2)
  have h19 := @Sha1.W_add M (t + 3)
  simp only [Nat.add_assoc, Nat.reduceAdd] at h16 h17 h18 h19
  simp only [sha1msg2, xorSi128, sha1msg1, sha1Quad, Nat.add_assoc, Nat.reduceAdd]
  rw [h16, h17, h18, h19]

/-! ## The rounds -/

/-- The working variables behind `t` rounds -/
def sha1Variables (H : Sha1.Working) (M : ℕ → BitVec 32) (t : ℕ) : Sha1.Working :=
  (List.range t).foldl (Sha1.round (Sha1.W M)) H

theorem sha1Variables_succ (H : Sha1.Working) (M : ℕ → BitVec 32) (t : ℕ) :
    sha1Variables H M (t + 1) = Sha1.round (Sha1.W M) (sha1Variables H M t) t := by
  rw [sha1Variables, List.range_succ, List.foldl_append]
  rfl

/-- `a` to `d` as they are in `ABCD` -/
def abcdVector : Sha1.Working → M128i
  | (a, b, c, d, _) => ⟨d, c, b, a⟩

/-- The functions and constants of four rounds are those that the intrinsic is
told to take. -/
theorem rnds4_eq {g i : ℕ} (hg : g < 20) (hi : i < 4) :
    Sha1.f (4 * g + i) = rnds4F (g / 5) ∧ Sha1.K (4 * g + i) = rnds4K (g / 5) := by
  have hcases : ∀ g < 20, ∀ i < 4, (4 * g + i) / 20 = g / 5 := by decide
  have hpart := hcases g hg i hi
  have hlt : g / 5 < 4 := by omega
  unfold Sha1.f Sha1.K
  interval_cases h : g / 5
  · rw [if_pos (by omega), if_pos (by omega)]
    exact ⟨rfl, rfl⟩
  · rw [if_neg (by omega), if_pos (by omega), if_neg (by omega), if_pos (by omega)]
    exact ⟨rfl, rfl⟩
  · rw [if_neg (by omega), if_neg (by omega), if_pos (by omega), if_neg (by omega),
      if_neg (by omega), if_pos (by omega)]
    exact ⟨rfl, rfl⟩
  · rw [if_neg (by omega), if_neg (by omega), if_neg (by omega), if_neg (by omega),
      if_neg (by omega), if_neg (by omega)]
    exact ⟨rfl, rfl⟩

/-- **Four rounds**: the first one finds its `e` added to its word. -/
theorem sha1rnds4_rounds (H : Sha1.Working) (M : ℕ → BitVec 32) {g : ℕ}
    (hg : g < 20) {x : M128i}
    (hx : x = ⟨Sha1.W M (4 * g + 3), Sha1.W M (4 * g + 2), Sha1.W M (4 * g + 1),
      Sha1.W M (4 * g) + (sha1Variables H M (4 * g)).2.2.2.2⟩) :
    sha1rnds4 (abcdVector (sha1Variables H M (4 * g))) x (g / 5)
        = abcdVector (sha1Variables H M (4 * (g + 1))) ∧
      (sha1Variables H M (4 * (g + 1))).2.2.2.2
        = (sha1Variables H M (4 * g)).1.rotateLeft 30 := by
  have h0 := @rnds4_eq g 0 hg (by decide)
  have h1 := @rnds4_eq g 1 hg (by decide)
  have h2 := @rnds4_eq g 2 hg (by decide)
  have h3 := @rnds4_eq g 3 hg (by decide)
  rw [Nat.add_zero] at h0
  rw [Nat.mul_succ, sha1Variables_succ, sha1Variables_succ, sha1Variables_succ,
    sha1Variables_succ]
  generalize sha1Variables H M (4 * g) = v at hx ⊢
  obtain ⟨a, b, c, d, e⟩ := v
  subst hx
  simp only [Sha1.round, h0, h1, h2, h3, sha1rnds4, abcdVector, and_true]
  generalize rnds4F (g / 5) = f, rnds4K (g / 5) = K, Sha1.W M (4 * g) = W₀,
    Sha1.W M (4 * g + 1) = W₁, Sha1.W M (4 * g + 2) = W₂, Sha1.W M (4 * g + 3) = W₃
  -- the sums of the intrinsic in the order of the standard
  have hfirst : f b c d + a.rotateLeft 5 + (W₀ + e) + K
      = a.rotateLeft 5 + f b c d + e + K + W₀ := by ac_rfl
  have hlater (x y E W : BitVec 32) : x + y + W + E + K = y + x + E + K + W := by
    ac_rfl
  rw [hfirst]
  generalize a.rotateLeft 5 + f b c d + e + K + W₀ = T₀
  rw [hlater (f a _ _) _ d W₁]
  generalize T₀.rotateLeft 5 + f a (b.rotateLeft 30) c + d + K + W₁ = T₁
  rw [hlater (f T₀ _ _) _ c W₂]
  generalize T₁.rotateLeft 5 + f T₀ (a.rotateLeft 30) (b.rotateLeft 30) + c + K + W₂ = T₂
  rw [hlater (f T₁ _ _) _ (b.rotateLeft 30) W₃]

/-! ## Between the groups -/

/-- What the vectors hold before the group `g`, of a block with the words `M`
and of the variables `H`. The words that the next groups take are at different
places on their way: those of the group itself are done, those of the next one
lack the last step, those of the one behind it have had one step only. -/
structure Sha1Between (H : Sha1.Working) (M : ℕ → BitVec 32) (g : ℕ)
    (r : Sha1Reg → M128i) : Prop where
  abcd : r .ABCD = abcdVector (sha1Variables H M (4 * g))
  first : g = 0 → r (.E (.ofNat 2 g)) = ⟨0, 0, 0, H.2.2.2.2⟩
  e : g ≠ 0 → (r (.E (.ofNat 2 g))).d3.rotateLeft 30
    = (sha1Variables H M (4 * g)).2.2.2.2
  msg0 : 4 ≤ g → g ≤ 19 → r (.MSG (.ofNat 4 g)) = sha1Quad (Sha1.W M) (4 * g)
  msg1 : 3 ≤ g → g ≤ 18 → r (.MSG (.ofNat 4 g + 1))
    = xorSi128 (sha1msg1 (sha1Quad (Sha1.W M) (4 * (g - 3)))
      (sha1Quad (Sha1.W M) (4 * (g - 3) + 4))) (sha1Quad (Sha1.W M) (4 * (g - 3) + 8))
  msg2 : 2 ≤ g → g ≤ 17 → r (.MSG (.ofNat 4 g + 2))
    = sha1msg1 (sha1Quad (Sha1.W M) (4 * (g - 2)))
      (sha1Quad (Sha1.W M) (4 * (g - 2) + 4))
  msg3 : 1 ≤ g → g ≤ 16 → r (.MSG (.ofNat 4 g + 3))
    = sha1Quad (Sha1.W M) (4 * (g - 1))

theorem ofNat_two_succ (g : ℕ) : Fin.ofNat 2 (g + 1) = Fin.ofNat 2 g + 1 := by
  apply Fin.ext
  show (g + 1) % 2 = (g % 2 + 1) % 2
  omega

/-- **A group** leads from one state between groups to the next one. -/
theorem sha1Group_between {H : Sha1.Working} {block : List UInt8}
    (hblock : block.length = 64) {g : ℕ} (hg : g < 20) {r : Sha1Reg → M128i}
    (h : Sha1Between H (blockWord bigEndian 4 block) g r) :
    let r' := runProgram sha1Mask (sha1Group g) block r
    Sha1Between H (blockWord bigEndian 4 block) (g + 1) r' ∧
      r' .ABCD_SAVE = r .ABCD_SAVE ∧ r' .E0_SAVE = r .E0_SAVE := by
  intro r'
  set M := blockWord bigEndian 4 block with hM
  obtain ⟨words, x, hstep⟩ : ∃ words x, Sha1Step g block r r' words x :=
    sha1Group_step g block r
  have hround := fin_four_round (Fin.ofNat 4 g)
  -- the words of the group
  have hwords : words = sha1Quad (Sha1.W M) (4 * g) := by
    rw [hstep.words_eq]
    by_cases hload : g < 4
    · have hquad : sha1Quad M (4 * g) = sha1Quad (Sha1.W M) (4 * g) := by
        simp only [sha1Quad]
        rw [Sha1.W_lt (by omega), Sha1.W_lt (by omega), Sha1.W_lt (by omega),
          Sha1.W_lt (by omega)]
      rw [if_pos hload, load_sha1Quad hblock hload, ← hM, hquad]
    · rw [if_neg hload, h.msg0 (by omega) (by omega)]
  -- what the rounds find in `E`
  have hx : x = ⟨Sha1.W M (4 * g + 3), Sha1.W M (4 * g + 2), Sha1.W M (4 * g + 1),
      Sha1.W M (4 * g) + (sha1Variables H M (4 * g)).2.2.2.2⟩ := by
    rw [hstep.x_eq, hwords]
    by_cases hzero : g = 0
    · rw [if_pos hzero, h.first hzero]
      subst hzero
      have hzeros (W : BitVec 32) : (0 : BitVec 32) + W = W := BitVec.zero_add W
      simp only [addEpi32, sha1Quad, hzeros]
      rw [BitVec.add_comm H.2.2.2.2]
      rfl
    · rw [if_neg hzero, sha1nexte, h.e hzero]
      rfl
  obtain ⟨hrounds, he⟩ := sha1rnds4_rounds H M hg hx
  refine ⟨.mk ?abcd ?first ?e ?msg0 ?msg1 ?msg2 ?msg3, hstep.abcd_save,
    hstep.e0_save⟩
  case abcd => rw [hstep.abcd, h.abcd, hrounds]
  case first => exact fun hzero => absurd hzero (Nat.succ_ne_zero g)
  case e =>
      intro _
      rw [ofNat_two_succ, hstep.e, h.abcd, he]
      rfl
  case msg0 =>
      intro h4 h19
      rw [ofNat_four_succ, hstep.msg1, if_pos (by omega), hwords,
        h.msg1 (by omega) (by omega)]
      have hquad := @sha1msg2_quad M (4 * (g - 3))
      rwa [show 4 * (g - 3) + 12 = 4 * g by omega,
        show 4 * (g - 3) + 16 = 4 * (g + 1) by omega] at hquad
  case msg1 =>
      intro h3 h18
      rw [ofNat_four_succ, hround.1, hstep.msg2, if_pos (by omega), hwords,
        h.msg2 (by omega) (by omega), show g + 1 - 3 = g - 2 by omega,
        show 4 * (g - 2) + 8 = 4 * g by omega]
  case msg2 =>
      intro h2 h17
      rw [ofNat_four_succ, hround.2.1, hstep.msg3, if_pos (by omega), hwords,
        h.msg3 (by omega) (by omega), show g + 1 - 2 = g - 1 by omega,
        show 4 * (g - 1) + 4 = 4 * g by omega]
  case msg3 =>
      intro _ _
      rw [ofNat_four_succ, hround.2.2, hstep.msg0, hwords, Nat.add_sub_cancel]

theorem sha1Groups_between {H : Sha1.Working} {block : List UInt8}
    (hblock : block.length = 64) {r : Sha1Reg → M128i}
    (h : Sha1Between H (blockWord bigEndian 4 block) 0 r) : ∀ n ≤ 20,
    ∃ r', runProgram sha1Mask ((List.range n).flatMap sha1Group) block r = r' ∧
      Sha1Between H (blockWord bigEndian 4 block) n r' ∧
      r' .ABCD_SAVE = r .ABCD_SAVE ∧ r' .E0_SAVE = r .E0_SAVE
  | 0, _ => ⟨r, rfl, h, rfl, rfl⟩
  | n + 1, hn => by
      obtain ⟨r₁, hrun, hbetween, habcd, he⟩ :=
        sha1Groups_between hblock h n (by omega)
      obtain ⟨hnext, habcd', he'⟩ :=
        sha1Group_between hblock (Nat.lt_of_succ_le hn) hbetween
      rw [List.range_succ, List.flatMap_append, List.flatMap_singleton,
        runProgram_append, hrun]
      exact ⟨_, rfl, hnext, habcd'.trans habcd, he'.trans he⟩

/-- **The program** takes the variables of a block on through its eighty rounds
and adds them up. -/
theorem sha1Program_run {H : Sha1.Working} {block : List UInt8}
    (hblock : block.length = 64) {r : Sha1Reg → M128i}
    (habcd : r .ABCD = abcdVector H) (he : r (.E 0) = ⟨0, 0, 0, H.2.2.2.2⟩) :
    let r' := runProgram sha1Mask sha1Program block r
    let v := sha1Variables H (blockWord bigEndian 4 block) 80
    r' .ABCD = addEpi32 (abcdVector v) (abcdVector H) ∧
      r' (.E 0) = ⟨0, 0, 0, H.2.2.2.2 + v.2.2.2.2⟩ := by
  intro r' v
  -- the registers behind the saves
  set r₀ : Sha1Reg → M128i := Function.update
    (Function.update r .ABCD_SAVE (r .ABCD)) .E0_SAVE (r (.E 0))
  have hstart : Sha1Between H (blockWord bigEndian 4 block) 0 r₀ := by
    refine ⟨habcd, fun _ => he, fun h => absurd rfl h, fun h => ?_, fun h => ?_,
      fun h => ?_, fun h => ?_⟩
    all_goals exact absurd h (by decide)
  obtain ⟨r₁, hgroups, hbetween, habcdSave, heSave⟩ :=
    sha1Groups_between hblock hstart 20 le_rfl
  have hrun : r' = runProgram sha1Mask
      [.sha1nexte (.E 0) (.E 0) .E0_SAVE, .add .ABCD .ABCD .ABCD_SAVE] block r₁ := by
    rw [← hgroups]
    show runProgram sha1Mask sha1Program block r = _
    rw [sha1Program_eq, runProgram_append, runProgram_append]
    rfl
  have hlast : (r₁ (.E 0)).d3.rotateLeft 30 = v.2.2.2.2 :=
    hbetween.e (by decide)
  rw [hrun]
  constructor
  · show addEpi32 (r₁ .ABCD) (r₁ .ABCD_SAVE) = _
    rw [hbetween.abcd, habcdSave]
    exact congrArg (addEpi32 _) habcd
  · show sha1nexte (r₁ (.E 0)) (r₁ .E0_SAVE) = _
    have hsave : r₁ .E0_SAVE = ⟨0, 0, 0, H.2.2.2.2⟩ := heSave.trans he
    rw [sha1nexte, hlast, hsave]

end Nawam
