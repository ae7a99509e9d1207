import Nawam.Wim.LzxFilter

/-!
# The E8 filter with vector instructions

Where there is SSE2 or AVX2 the filter looks at 32 bytes at once. A mask of 64 bits
remembers which of the next bytes are not part of an operand. A byte E8 that is put 28
bytes before the end of the last block is the trap that ends the loop over the blocks;
what is not in a block is gone over byte by byte, up to the first aligned byte and from
the trap's block on.

`lzxE8FilterVector_eq` says that for every place of the data in memory this is the same
sweep that the portable loop is, with no load that is not aligned and none outside of
the data.
-/

namespace Nawam.Wim

def alignmentRequired (avx2 : Bool) : ℕ := if avx2 then 32 else 16

/-- What the loops of `lzx_e8_filter` work on: the data, `p - data` and `valid_mask` -/
structure E8State where
  data : List UInt8
  p : ℕ
  validMask : BitVec 64

/-- `_mm_movemask_epi8` of a comparison with bytes E8 -/
def movemask (n : ℕ) (bytes : List UInt8) : BitVec n :=
  (BitVec.ofBoolListLE (bytes.map (· == 0xE8))).setWidth n

/-- `bsf32`: the lowest bit that is set -/
def bsf32 (mask : BitVec 32) : ℕ := (List.range 32).findIdx (mask.getLsbD ·)

section Filter

variable (avx2 : Bool) (base : ℕ) (processTarget : ProcessTarget)

/-- The turn of the loops that go byte by byte -/
def e8Byte (state : E8State) : C E8State := do
  let b ← load state.data state.p
  -- `valid_mask & 1`
  let state ← if b = 0xE8 ∧ state.validMask.getLsbD 0 = true then do
      let data ← processTarget state.data (state.p + 1) state.p
      .ok { state with data := data, validMask := state.validMask &&& ~~~0x1F#64 }
    else .ok state
  .ok { state with p := state.p + 1, validMask := state.validMask >>> 1 ||| 1#64 <<< 63 }

/-- The loop up to the first aligned byte, and whether the function returns from it -/
def e8Align : ℕ → E8State → C (E8State × Bool)
  | 0, _ => .error .outOfFuel
  | turns + 1, state =>
      if (base + state.p) % alignmentRequired avx2 = 0 then .ok (state, false)
      else if state.p ≥ state.data.length - 10 then .ok (state, true)
      else do
        let state ← e8Byte processTarget state
        e8Align turns state

/-- The mask of the bytes E8 among the 32 at `p`. An address that is loaded from has to be
aligned. -/
def e8Mask (data : List UInt8) (p : ℕ) : C (BitVec 32) := do
  assertThat ((base + p) % alignmentRequired avx2 = 0)
  if avx2 then do
    let bytes ← loadN data p 32
    .ok (movemask 32 bytes)
  else do
    let bytes1 ← loadN data p 16
    let bytes2 ← loadN data (p + 16) 16
    let mask1 := (movemask 16 bytes1).setWidth 32
    let mask2 := (movemask 16 bytes2).setWidth 32
    .ok (mask1 ||| mask2 <<< 16)

/-- The inner loop over blocks without a byte E8 -/
def e8Find : ℕ → List UInt8 → ℕ → C (ℕ × BitVec 32)
  | 0, _, _ => .error .outOfFuel
  | turns + 1, data, p => do
      let mask ← e8Mask avx2 base data p
      if mask ≠ 0#32 then .ok (p, mask) else e8Find turns data (p + 32)

/-- `while ((e8_mask &= valid_mask))` -/
def e8Bits (p : ℕ) : ℕ → List UInt8 → BitVec 64 → BitVec 32 → C (List UInt8 × BitVec 64)
  | 0, _, _, _ => .error .outOfFuel
  | turns + 1, data, validMask, mask =>
      let mask := mask &&& validMask.setWidth 32
      if mask = 0#32 then .ok (data, validMask)
      else do
        let bit := bsf32 mask
        let data ← processTarget data (p + bit + 1) ↑(p + bit)
        e8Bits p turns data (validMask &&& ~~~(0x1F#64 <<< bit)) mask

/-- The loop over the blocks, up to the one with the trap -/
def e8Blocks (trap : ℕ) : ℕ → E8State → C E8State
  | 0, _ => .error .outOfFuel
  | turns + 1, state => do
      let (p, mask) ← e8Find avx2 base state.data.length state.data state.p
      let validMask := if p ≠ state.p then BitVec.allOnes 64 else state.validMask
      if p = trap - 4 then .ok { state with p := p, validMask := validMask }
      else do
        let (data, validMask) ← e8Bits processTarget p 33 state.data validMask mask
        e8Blocks trap turns {
          data := data
          p := p + 32
          validMask := validMask >>> 32 ||| 0xFFFFFFFF00000000#64 }

/-- The loop at the end of the data -/
def e8Rest : ℕ → E8State → C (List UInt8)
  | 0, _ => .error .outOfFuel
  | turns + 1, state =>
      if state.p < state.data.length - 10 then do
        let state ← e8Byte processTarget state
        e8Rest turns state
      else .ok state.data

/-- `lzx_e8_filter` with SSE2 or AVX2, of data that is at the address `base` -/
def lzxE8FilterVector (data : List UInt8) : C (List UInt8) :=
  if data.length ≤ 10 then .ok data
  else do
    let size := data.length
    let (state, returned) ← e8Align avx2 base processTarget (size + 1) ⟨data, 0, BitVec.allOnes 64⟩
    if returned then .ok state.data
    else do
      let state ← if size - state.p ≥ 64 then do
          -- `& ~31` rounds down to a multiple of 32
          let trap := state.p + (size - state.p) / 32 * 32 - 32 + 4
          let savedByte ← load state.data trap
          let data ← store state.data trap 0xE8
          let state ← e8Blocks avx2 base processTarget trap (size + 1) { state with data := data }
          let data ← store state.data trap savedByte
          .ok { state with data := data }
        else .ok state
      e8Rest processTarget (size + 1) state

end Filter

/-! ## Masks -/

section Masks

theorem getLsbD_movemask {n i : ℕ} {bytes : List UInt8} (hi : i < n) :
    (movemask n bytes).getLsbD i = (bytes[i]? == some 0xE8) := by
  rw [movemask, BitVec.getLsbD_setWidth, decide_eq_true hi, Bool.true_and,
    BitVec.getLsbD_ofBoolListLE, List.getD_eq_getElem?_getD, List.getElem?_map]
  cases bytes[i]? with
  | none => rfl
  | some b => rfl

theorem bsf32_spec {mask : BitVec 32} (h : mask ≠ 0#32) : bsf32 mask < 32 ∧
    mask.getLsbD (bsf32 mask) = true ∧ ∀ i < bsf32 mask, mask.getLsbD i = false := by
  have hex : ∃ i ∈ List.range 32, mask.getLsbD i = true := by
    by_contra hnone
    refine h (BitVec.eq_of_getLsbD_eq fun i hi => ?_)
    rw [BitVec.getLsbD_zero, ← Bool.not_eq_true]
    exact fun hbit => hnone ⟨i, List.mem_range.mpr hi, hbit⟩
  have hlt : bsf32 mask < (List.range 32).length := List.findIdx_lt_length_of_exists hex
  refine ⟨hlt.trans_eq List.length_range, ?_, fun i hi => ?_⟩
  · have hfound : mask.getLsbD (List.range 32)[bsf32 mask] = true := List.findIdx_getElem
    rwa [List.getElem_range] at hfound
  · have hbefore := List.not_of_lt_findIdx hi
    rwa [List.getElem_range] at hbefore

theorem getLsbD_31 (i : ℕ) : (0x1F#64).getLsbD i = decide (i < 5) := by
  rw [BitVec.getLsbD_ofNat, show 0x1F = 2 ^ 5 - 1 from rfl, Nat.testBit_two_pow_sub_one]
  by_cases h : i < 5
  · rw [decide_eq_true h, decide_eq_true (by omega), Bool.and_true]
  · rw [decide_eq_false h, Bool.and_false]

theorem getLsbD_clear {mask : BitVec 64} {bit i : ℕ} (hi : i < 64) :
    (mask &&& ~~~(0x1F#64 <<< bit)).getLsbD i =
      (mask.getLsbD i && decide (i < bit ∨ bit + 5 ≤ i)) := by
  rw [BitVec.getLsbD_and, BitVec.getLsbD_not, BitVec.getLsbD_shiftLeft, getLsbD_31,
    decide_eq_true hi, Bool.true_and, Bool.true_and]
  congr 1
  by_cases hlt : i < bit
  · have hin : decide (i < bit ∨ bit + 5 ≤ i) = true := decide_eq_true (Or.inl hlt)
    rw [decide_eq_true hlt, hin]
    rfl
  · rw [decide_eq_false hlt, Bool.not_false, Bool.true_and, ← decide_not, decide_eq_decide]
    omega

theorem getLsbD_clearFirst {mask : BitVec 64} {i : ℕ} :
    (mask &&& ~~~0x1F#64).getLsbD i = (mask.getLsbD i && decide (5 ≤ i)) := by
  rw [BitVec.getLsbD_and, BitVec.getLsbD_not, getLsbD_31]
  by_cases hi : i < 64
  · rw [decide_eq_true hi, Bool.true_and, ← decide_not]
    congr 1
    rw [decide_eq_decide, not_lt]
  · rw [BitVec.getLsbD_of_ge _ _ (by omega), Bool.false_and, Bool.false_and]

theorem getLsbD_next {mask : BitVec 64} {i : ℕ} (hi : i < 64) :
    (mask >>> 1 ||| 1#64 <<< 63).getLsbD i = (decide (i = 63) || mask.getLsbD (i + 1)) := by
  rw [BitVec.getLsbD_or, BitVec.getLsbD_ushiftRight, BitVec.getLsbD_shiftLeft, Nat.add_comm 1 i,
    Bool.or_comm, BitVec.getLsbD_one, decide_eq_true hi, Bool.true_and]
  congr 1
  by_cases h : i = 63
  · subst h
    rfl
  · rw [decide_eq_false h, decide_eq_true (show i < 63 by omega)]
    rfl

theorem getLsbD_nextBlock {mask : BitVec 64} {i : ℕ} (hi : i < 64) :
    (mask >>> 32 ||| 0xFFFFFFFF00000000#64).getLsbD i =
      (decide (32 ≤ i) || mask.getLsbD (32 + i)) := by
  have hhigh : 0xFFFFFFFF00000000#64 = BitVec.allOnes 64 <<< 32 := by decide
  rw [hhigh, BitVec.getLsbD_or, BitVec.getLsbD_ushiftRight, BitVec.getLsbD_shiftLeft,
    Bool.or_comm, decide_eq_true hi, Bool.true_and]
  congr 1
  by_cases h : 32 ≤ i
  · rw [decide_eq_false (by omega), decide_eq_true h, BitVec.getLsbD_allOnes,
      decide_eq_true (by omega)]
    rfl
  · rw [decide_eq_true (by omega), decide_eq_false h]
    rfl

end Masks

/-! ## Byte by byte -/

/-- Where the sweep is when a loop is at `p`: it goes on from one of the next five bytes, the
mask says from which, and comes to `goal`. -/
structure E8State.Sweeps (t : ℤ → ℤ → ℤ) (goal : List UInt8) (state : E8State) (s : ℕ) :
    Prop where
  low : state.p ≤ s
  high : s ≤ state.p + 4
  mask : ∀ k < 64, state.validMask.getLsbD k = decide (s ≤ state.p + k)
  sweep : sweepFrom (· == 0xE8) 4 10 (rewritten t) state.data s = goal

section Bytes

variable {processTarget : ProcessTarget} {t : ℤ → ℤ → ℤ} {goal data : List UInt8} {n p s : ℕ}

/-- The data when the operand behind `p` is changed -/
def changed (t : ℤ → ℤ → ℤ) (data : List UInt8) (p : ℕ) : List UInt8 :=
  data.take (p + 1) ++ (rewritten t p ((data.drop (p + 1)).take 4) ++ data.drop (p + 1 + 4))

theorem changed_length (h : p + 10 < data.length) : (changed t data p).length = data.length := by
  simp only [changed, List.length_append, rewritten_length, List.length_take, List.length_drop]
  omega

theorem changed_getElem? {k : ℕ} (h : p + 10 < data.length) (hk : k ≤ p ∨ p + 4 < k) :
    (changed t data p)[k]? = data[k]? := by
  have hfront : (data.take (p + 1)).length = p + 1 := List.length_take_of_le (by omega)
  have hwritten := rewritten_length t p ((data.drop (p + 1)).take 4)
  rw [changed]
  rcases hk with hk | hk
  · rw [List.getElem?_append_left (by omega), List.getElem?_take_of_lt (by omega)]
  · rw [List.getElem?_append_right (by omega), List.getElem?_append_right (by omega), hfront,
      hwritten, List.getElem?_drop]
    congr 1
    omega

theorem sweepFrom_changed (h : p + 10 < data.length) (hmark : data[p]? = some 0xE8) :
    sweepFrom (· == 0xE8) 4 10 (rewritten t) data p =
      sweepFrom (· == 0xE8) 4 10 (rewritten t) (changed t data p) (p + 5) := by
  have hlt : p < data.length := by omega
  rw [List.getElem?_eq_getElem hlt, Option.some_inj] at hmark
  exact sweepFrom_hit (by decide) (fun i xs _ => rewritten_length t i xs) hlt h
    (beq_iff_eq.mpr hmark)

/-- Bytes that are not E8 are gone past. -/
theorem sweepFrom_pass {q : ℕ} (hpq : p ≤ q) (hq : q ≤ data.length)
    (h : ∀ k, p ≤ k → k < q → data[k]? ≠ some 0xE8) :
    sweepFrom (· == 0xE8) 4 10 (rewritten t) data p =
      sweepFrom (· == 0xE8) 4 10 (rewritten t) data q := by
  refine sweepFrom_skip hpq hq fun k hk hpk hkq => ?_
  rw [beq_eq_false_iff_ne]
  intro heq
  refine h k hpk hkq ?_
  rw [List.getElem?_eq_getElem hk, heq]

theorem e8Byte_sweeps (h : Translates processTarget t) {state : E8State}
    (hp : state.p + 10 < state.data.length) (hstate : state.Sweeps t goal s) :
    Achieves (e8Byte processTarget state) fun state' =>
      state'.data.length = state.data.length ∧ state'.p = state.p + 1 ∧
      ∃ s', state'.Sweeps t goal s' := by
  obtain ⟨data, p, validMask⟩ := state
  obtain ⟨hlow, hhigh, hmask, hsweep⟩ := hstate
  dsimp only at hp hlow hhigh hmask hsweep ⊢
  have hlt : p < data.length := by omega
  rw [e8Byte]
  dsimp only
  rw [load_of_lt hlt, C.ok_bind]
  have hget := List.getElem?_eq_getElem hlt
  have hfirst := hmask 0 (by decide)
  split_ifs with hhit
  · obtain ⟨hb, hbit⟩ := hhit
    rw [hfirst, decide_eq_true_eq] at hbit
    obtain rfl : s = p := le_antisymm hbit hlow
    rw [h.eq data (s + 1) s (by omega), C.ok_bind, C.ok_bind]
    refine .ok ⟨changed_length hp, rfl, s + 5, by dsimp only; omega, by dsimp only; omega,
      fun k hk => ?_, ?_⟩
    · dsimp only
      rw [getLsbD_next hk, getLsbD_clearFirst]
      by_cases hlast : k = 63
      · rw [decide_eq_true hlast, Bool.true_or, decide_eq_true (by omega)]
      · rw [decide_eq_false hlast, Bool.false_or, hmask (k + 1) (by omega), ← Bool.decide_and,
          decide_eq_decide]
        omega
    · rw [← hsweep, sweepFrom_changed hp (by rw [hget, hb])]
      rfl
  · rw [C.ok_bind]
    refine .ok ⟨rfl, rfl, max s (p + 1), by dsimp only; omega, by dsimp only; omega,
      fun k hk => ?_, ?_⟩
    · dsimp only
      rw [getLsbD_next hk]
      by_cases hlast : k = 63
      · rw [decide_eq_true hlast, Bool.true_or, decide_eq_true (by omega)]
      · rw [decide_eq_false hlast, Bool.false_or, hmask (k + 1) (by omega), decide_eq_decide]
        omega
    · rw [← hsweep]
      by_cases hs : s ≤ p
      · -- the byte is not part of an operand, so it is not E8
        have hne : data[p] ≠ 0xE8 := fun heq => hhit ⟨heq, by rw [hfirst]; exact decide_eq_true hs⟩
        rw [max_eq_right (by omega)]
        dsimp only
        refine (sweepFrom_pass (by omega) (by omega) fun k hsk hk => ?_).symm
        obtain rfl : k = p := by omega
        rw [hget]
        exact fun heq => hne (Option.some_inj.mp heq)
      · rw [max_eq_left (by omega)]

/-- The data where the sweep has come to its end -/
theorem E8State.Sweeps.done {state : E8State} (h : state.Sweeps t goal s)
    (hp : state.data.length ≤ state.p + 10) : state.data = goal := by
  rw [← h.sweep, sweepFrom_end]
  have hlow := h.low
  omega

theorem e8Rest_eq (h : Translates processTarget t) : ∀ (turns : ℕ) {state : E8State} {s : ℕ},
    10 < state.data.length → state.p ≤ state.data.length → state.Sweeps t goal s →
    state.data.length < state.p + turns → e8Rest processTarget turns state = .ok goal
  | 0, _, _, _, hle, _, hturns => absurd hturns (Nat.not_lt.mpr hle)
  | turns + 1, state, s, hsize, hle, hstate, hturns => by
      rw [e8Rest]
      split_ifs with hp
      · obtain ⟨state', hrun, hlength, hp', s', hstate'⟩ := e8Byte_sweeps h (by omega) hstate
        rw [hrun, C.ok_bind]
        exact e8Rest_eq h turns (by omega) (by omega) hstate' (by omega)
      · rw [hstate.done (by omega)]

/-- The loop comes to an aligned byte, or to the end of the data. -/
theorem e8Align_sweeps (avx2 : Bool) (base : ℕ) (h : Translates processTarget t) :
    ∀ (turns : ℕ) {state : E8State} {s : ℕ}, 10 < state.data.length →
    state.p ≤ state.data.length → state.Sweeps t goal s → state.data.length < state.p + turns →
    Achieves (e8Align avx2 base processTarget turns state) fun res =>
      res.1.data.length = state.data.length ∧ res.1.p ≤ res.1.data.length ∧
      (∃ s', res.1.Sweeps t goal s') ∧
      (res.2 = true → res.1.data = goal) ∧
      (res.2 = false → (base + res.1.p) % alignmentRequired avx2 = 0)
  | 0, _, _, _, hle, _, hturns => absurd hturns (Nat.not_lt.mpr hle)
  | turns + 1, state, s, hsize, hle, hstate, hturns => by
      rw [e8Align]
      split_ifs with haligned hend
      · exact .ok ⟨rfl, hle, ⟨s, hstate⟩, fun h => absurd h Bool.false_ne_true, fun _ => haligned⟩
      · exact .ok ⟨rfl, hle, ⟨s, hstate⟩, fun _ => hstate.done (by omega),
          fun h => absurd h.symm Bool.false_ne_true⟩
      · obtain ⟨state', hrun, hlength, hp', s', hstate'⟩ := e8Byte_sweeps h (by omega) hstate
        rw [hrun, C.ok_bind, ← hlength]
        exact e8Align_sweeps avx2 base h turns (by omega) (by omega) hstate' (by omega)

end Bytes

/-! ## Block by block -/

section Blocks

variable {processTarget : ProcessTarget} {t : ℤ → ℤ → ℤ} {goal data : List UInt8}
  {avx2 : Bool} {base p s trap : ℕ} {saved : UInt8}

theorem getElem?_slice {n k : ℕ} (hk : k < n) : ((data.drop p).take n)[k]? = data[p + k]? := by
  rw [List.getElem?_take_of_lt hk, List.getElem?_drop]

/-- Both instruction sets give the mask of 32 bytes. -/
theorem e8Mask_eq (haligned : (base + p) % alignmentRequired avx2 = 0)
    (hp : p + 32 ≤ data.length) :
    Achieves (e8Mask avx2 base data p) fun mask =>
      ∀ k < 32, mask.getLsbD k = (data[p + k]? == some 0xE8) := by
  rw [e8Mask, decide_eq_true haligned, assertThat_true, C.ok_bind]
  split_ifs with havx
  · rw [loadN_of_le hp, C.ok_bind]
    refine .ok fun k hk => ?_
    rw [getLsbD_movemask hk, getElem?_slice hk]
  · rw [loadN_of_le (by omega), C.ok_bind, loadN_of_le (by omega), C.ok_bind]
    refine .ok fun k hk => ?_
    rw [BitVec.getLsbD_or, BitVec.getLsbD_shiftLeft, BitVec.getLsbD_setWidth,
      BitVec.getLsbD_setWidth, decide_eq_true hk, Bool.true_and, Bool.true_and]
    by_cases hlow : k < 16
    · rw [getLsbD_movemask hlow, getElem?_slice hlow, decide_eq_true hlow]
      simp only [Bool.not_true, Bool.false_and, Bool.or_false]
    · rw [BitVec.getLsbD_of_ge _ k (by omega), decide_eq_false hlow,
        decide_eq_true (show k - 16 < 32 by omega),
        getLsbD_movemask (show k - 16 < 16 by omega),
        getElem?_slice (by omega)]
      simp only [Bool.not_false, Bool.true_and, Bool.false_or]
      congr 2
      omega

/-- The address of the next block is aligned. -/
theorem aligned_add (h : (base + p) % alignmentRequired avx2 = 0) :
    (base + (p + 32)) % alignmentRequired avx2 = 0 := by
  cases avx2
  · have h16 : (base + p) % 16 = 0 := h
    show (base + (p + 32)) % 16 = 0
    omega
  · have h32 : (base + p) % 32 = 0 := h
    show (base + (p + 32)) % 32 = 0
    omega

theorem mask_ne_zero {mask : BitVec 32} (hmask : ∀ k < 32, mask.getLsbD k =
    (data[p + k]? == some 0xE8)) : mask ≠ 0#32 ↔ ∃ k < 32, data[p + k]? = some 0xE8 := by
  constructor
  · intro hne
    obtain ⟨hlt, hbit, -⟩ := bsf32_spec hne
    rw [hmask _ hlt, beq_iff_eq] at hbit
    exact ⟨_, hlt, hbit⟩
  · rintro ⟨k, hk, heq⟩ rfl
    have hbit := hmask k hk
    rw [BitVec.getLsbD_zero, heq] at hbit
    exact absurd hbit.symm (by decide)

/-- The inner loop stops at a block with a byte E8, which is not behind the one with the
trap. -/
theorem e8Find_spec (htrap : data[trap]? = some 0xE8) (hblock : trap + 28 ≤ data.length) :
    ∀ (turns : ℕ) {p : ℕ}, (base + p) % alignmentRequired avx2 = 0 → p + 4 ≤ trap →
      (trap - 4 - p) % 32 = 0 → trap < p + 32 * turns →
      Achieves (e8Find avx2 base turns data p) fun res => p ≤ res.1 ∧ res.1 + 4 ≤ trap ∧
        (trap - 4 - res.1) % 32 = 0 ∧ (base + res.1) % alignmentRequired avx2 = 0 ∧
        (res.1 ≠ p → p + 32 ≤ res.1) ∧
        (∀ k, p ≤ k → k < res.1 → data[k]? ≠ some 0xE8) ∧
        ∀ k < 32, res.2.getLsbD k = (data[res.1 + k]? == some 0xE8)
  | 0, p, _, hp, _, hturns => absurd hturns (by omega)
  | turns + 1, p, haligned, hp, hmod, hturns => by
      rw [e8Find]
      refine (e8Mask_eq haligned (by omega)).bind fun mask hmask => ?_
      by_cases hzero : mask ≠ 0#32
      · rw [if_pos hzero]
        exact .ok ⟨le_rfl, hp, hmod, haligned, fun h => absurd rfl h,
          fun k hpk hk => absurd hk (Nat.not_lt.mpr hpk), hmask⟩
      · rw [if_neg hzero]
        have hnone : ∀ k < 32, data[p + k]? ≠ some 0xE8 := fun k hk heq =>
          hzero ((mask_ne_zero hmask).mpr ⟨k, hk, heq⟩)
        have hfar : p + 32 + 4 ≤ trap := by
          by_contra hnear
          refine hnone (trap - p) (by omega) ?_
          rw [Nat.add_sub_cancel' (by omega)]
          exact htrap
        refine (e8Find_spec htrap hblock turns (aligned_add haligned) (by omega) (by omega)
          (by omega)).mono ?_
        rintro ⟨q, mask'⟩ ⟨hle, hq, hmod', haligned'', -, hbefore, hmask'⟩
        dsimp only at hle hq hmod' haligned'' hbefore hmask' ⊢
        refine ⟨by omega, hq, hmod', haligned'', fun _ => hle, fun k hpk hk => ?_, hmask'⟩
        by_cases hk32 : k < p + 32
        · have h := hnone (k - p) (by omega)
          rwa [Nat.add_sub_cancel' hpk] at h
        · exact hbefore k (by omega) hk

/-- The trap is not changed when an operand in front of it is, nor read. -/
theorem changed_set (h : p + 4 < trap) (hlength : trap < data.length) :
    changed t (data.set trap saved) p = (changed t data p).set trap saved := by
  have hfront : (data.take (p + 1)).length = p + 1 := List.length_take_of_le (by omega)
  have hwritten := rewritten_length t p ((data.drop (p + 1)).take 4)
  have hoperand : ((data.set trap saved).drop (p + 1)).take 4 = (data.drop (p + 1)).take 4 := by
    rw [List.drop_set, if_neg (by omega), List.take_set_of_le (by omega)]
  rw [changed, changed, hoperand, List.set_append_right _ _ (by omega),
    List.set_append_right _ _ (by omega), hfront, hwritten, List.take_set_of_le (by omega),
    List.drop_set, if_neg (by omega), Nat.sub_sub]

theorem e8Bits_spec (h : Translates processTarget t) (hp : p + 36 ≤ trap) :
    ∀ (turns : ℕ) {data : List UInt8} {validMask : BitVec 64} {mask : BitVec 32} {s : ℕ},
      trap + 28 ≤ data.length → data[trap]? = some 0xE8 → p ≤ s → s ≤ p + 36 → 1 ≤ turns →
      p + 33 ≤ s + turns → (∀ k < 64, s ≤ p + k → validMask.getLsbD k = true) →
      (∀ k < 32, p + k < s → validMask.getLsbD k = false ∨ mask.getLsbD k = false) →
      (∀ k, 32 ≤ k → k < 64 → p + k < s → validMask.getLsbD k = false) →
      (∀ k < 32, s ≤ p + k → mask.getLsbD k = (data[p + k]? == some 0xE8)) →
      sweepFrom (· == 0xE8) 4 10 (rewritten t) (data.set trap saved) s = goal →
      Achieves (e8Bits processTarget p turns data validMask mask) fun res =>
        res.1.length = data.length ∧ res.1[trap]? = some 0xE8 ∧ ∃ s', p + 32 ≤ s' ∧
        s' ≤ p + 36 ∧ (∀ k, 32 ≤ k → k < 64 → res.2.getLsbD k = decide (s' ≤ p + k)) ∧
        sweepFrom (· == 0xE8) 4 10 (rewritten t) (res.1.set trap saved) s' = goal
  | 0, _, _, _, _, _, _, _, _, hturns, _, _, _, _, _, _ => absurd hturns (Nat.not_succ_le_zero 0)
  | turns + 1, data, validMask, mask, s, hblock, htrap, hlow, hhigh, _, hturns, hvalid, hclear,
      hover, hmask, hsweep => by
      have hand : ∀ k < 32, (mask &&& validMask.setWidth 32).getLsbD k =
          (decide (s ≤ p + k) && data[p + k]? == some 0xE8) := by
        intro k hk
        rw [BitVec.getLsbD_and, BitVec.getLsbD_setWidth, decide_eq_true hk, Bool.true_and]
        by_cases hs : s ≤ p + k
        · rw [hvalid k (by omega) hs, hmask k hk hs, decide_eq_true hs, Bool.and_true,
            Bool.true_and]
        · rw [decide_eq_false hs, Bool.false_and, Bool.and_eq_false_iff]
          exact (hclear k hk (by omega)).symm
      have hset : ∀ k, k ≠ trap → (data.set trap saved)[k]? = data[k]? :=
        fun k hk => List.getElem?_set_ne hk.symm
      have hlength : (data.set trap saved).length = data.length := List.length_set
      rw [e8Bits]
      dsimp only
      split_ifs with hzero
      · -- there is no byte E8 left in the block
        refine .ok ⟨rfl, htrap, max s (p + 32), by omega, by omega, fun k hk hk' => ?_, ?_⟩
        · by_cases hs : s ≤ p + k
          · rw [hvalid k hk' hs, decide_eq_true (by omega)]
          · rw [hover k hk hk' (by omega), decide_eq_false (by omega)]
        · rw [← hsweep]
          dsimp only
          refine (sweepFrom_pass (le_max_left _ _) (by omega) fun k hsk hk heq => ?_).symm
          have hbit := hand (k - p) (by omega)
          rw [hset k (by omega)] at heq
          rw [hzero, BitVec.getLsbD_zero, Nat.add_sub_cancel' (by omega), heq,
            decide_eq_true hsk] at hbit
          exact absurd hbit (by decide)
      · obtain ⟨hbit, hone, hbefore⟩ := bsf32_spec hzero
        generalize bsf32 (mask &&& validMask.setWidth 32) = bit at hbit hone hbefore ⊢
        rw [hand bit hbit, Bool.and_eq_true, decide_eq_true_eq, beq_iff_eq] at hone
        obtain ⟨hs, he8⟩ := hone
        have hguard : p + bit + 10 < data.length := by omega
        rw [h.eq data (p + bit + 1) (p + bit) (by omega), C.ok_bind]
        have hlength' : (changed t data (p + bit)).length = data.length := changed_length hguard
        have htrap' : (changed t data (p + bit))[trap]? = some 0xE8 := by
          rw [changed_getElem? hguard (by omega), htrap]
        change Achieves (e8Bits processTarget p turns (changed t data (p + bit)) _ _) _
        refine (e8Bits_spec h hp turns (s := p + bit + 5) (by omega) htrap' (by omega)
          (by omega) (by omega) (by omega) (fun k hk hsk => ?_) (fun k hk hks => ?_)
          (fun k hk hk' hks => ?_) (fun k hk hsk => ?_) ?_).mono ?_
        · rw [getLsbD_clear hk, hvalid k hk (by omega), decide_eq_true (by omega)]
          rfl
        · rw [getLsbD_clear (by omega)]
          by_cases hkb : k < bit
          · exact .inr (hbefore k hkb)
          · rw [decide_eq_false (by omega), Bool.and_false]
            exact .inl rfl
        · rw [getLsbD_clear hk', decide_eq_false (by omega), Bool.and_false]
        · rw [hand k hk, decide_eq_true (by omega), Bool.true_and,
            changed_getElem? hguard (by omega)]
        · rw [← changed_set (by omega) (by omega), ← sweepFrom_changed (by omega)
            (by rw [hset _ (by omega), he8]), ← hsweep]
          refine (sweepFrom_pass hs (by omega) fun k hsk hk heq => ?_).symm
          have hbit' := hbefore (k - p) (by omega)
          rw [hset k (by omega)] at heq
          rw [hand _ (by omega), Nat.add_sub_cancel' (by omega), heq, decide_eq_true hsk] at hbit'
          exact absurd hbit' (by decide)
        · rintro res ⟨hres, hrest⟩
          exact ⟨hres.trans hlength', hrest⟩

/-- The state with the byte back in the place of the trap -/
def E8State.untrapped (state : E8State) (trap : ℕ) (saved : UInt8) : E8State :=
  { state with data := state.data.set trap saved }

theorem e8Blocks_spec (h : Translates processTarget t) : ∀ (turns : ℕ) {state : E8State} {s : ℕ},
    trap + 28 ≤ state.data.length → state.data[trap]? = some 0xE8 →
    (base + state.p) % alignmentRequired avx2 = 0 → state.p + 4 ≤ trap →
    (trap - 4 - state.p) % 32 = 0 → trap < state.p + 32 * turns →
    (state.untrapped trap saved).Sweeps t goal s →
    Achieves (e8Blocks avx2 base processTarget trap turns state) fun state' =>
      state'.data.length = state.data.length ∧ state'.p = trap - 4 ∧
      ∃ s', (state'.untrapped trap saved).Sweeps t goal s'
  | 0, _, _, _, _, _, hp, _, hturns, _ => absurd hturns (by omega)
  | turns + 1, ⟨data, p, validMask⟩, s, hblock, htrap, haligned, hp, hmod, hturns, hstate => by
      obtain ⟨hlow, hhigh, hmask, hsweep⟩ := hstate
      dsimp only [E8State.untrapped] at hblock htrap haligned hp hmod hturns hlow hhigh hmask hsweep
      have hset : ∀ k, k ≠ trap → (data.set trap saved)[k]? = data[k]? :=
        fun k hk => List.getElem?_set_ne hk.symm
      have hlength : (data.set trap saved).length = data.length := List.length_set
      rw [e8Blocks]
      dsimp only
      refine (e8Find_spec htrap hblock data.length haligned hp hmod (by omega)).bind ?_
      rintro ⟨q, mask⟩ ⟨hpq, hq, hmod', haligned', hjump, hbefore, hbits⟩
      dsimp only at hpq hq hmod' haligned' hjump hbefore hbits ⊢
      -- where the sweep is at the block
      obtain ⟨s', hlow', hhigh', hmask', hsweep'⟩ : ∃ s', q ≤ s' ∧ s' ≤ q + 4 ∧
          (∀ k < 64, (if q ≠ p then BitVec.allOnes 64 else validMask).getLsbD k =
            decide (s' ≤ q + k)) ∧
          sweepFrom (· == 0xE8) 4 10 (rewritten t) (data.set trap saved) s' = goal := by
        by_cases hsame : q = p
        · rw [if_neg (not_not.mpr hsame), hsame]
          exact ⟨s, hlow, hhigh, hmask, hsweep⟩
        · have hfar := hjump hsame
          refine ⟨q, le_rfl, Nat.le_add_right q 4, fun k hk => ?_, ?_⟩
          · rw [if_pos hsame, BitVec.getLsbD_allOnes, decide_eq_true hk,
              decide_eq_true (Nat.le_add_right q k)]
          · rw [← hsweep]
            refine (sweepFrom_pass (by omega) (by omega) fun k hsk hk => ?_).symm
            rw [hset k (by omega)]
            exact hbefore k (by omega) hk
      generalize (if q ≠ p then BitVec.allOnes 64 else validMask) = validMask at hmask' ⊢
      split_ifs with hend
      · exact .ok ⟨rfl, hend, s', hlow', hhigh', hmask', hsweep'⟩
      · have hfar : q + 36 ≤ trap := by omega
        refine (e8Bits_spec h hfar 33 hblock htrap hlow' (by omega) (by decide) (by omega)
          (fun k hk hsk => ?_) (fun k hk hks => ?_) (fun k hk hk' hks => ?_)
          (fun k hk _ => hbits k hk) hsweep').bind ?_
        · rw [hmask' k hk, decide_eq_true hsk]
        · rw [hmask' k (by omega), decide_eq_false (by omega)]
          exact .inl rfl
        · rw [hmask' k hk', decide_eq_false (by omega)]
        · rintro ⟨data', validMask'⟩ ⟨hlength', htrap', s'', hlow'', hhigh'', hmask'', hsweep''⟩
          dsimp only at hlength' htrap' hmask'' hsweep'' ⊢
          have hnext : (E8State.untrapped ⟨data', q + 32,
              validMask' >>> 32 ||| 0xFFFFFFFF00000000#64⟩ trap saved).Sweeps t goal s'' := by
            refine ⟨hlow'', hhigh'', fun k hk => ?_, hsweep''⟩
            dsimp only [E8State.untrapped]
            rw [getLsbD_nextBlock hk]
            by_cases hk32 : 32 ≤ k
            · rw [decide_eq_true hk32, Bool.true_or]
              exact (decide_eq_true (by omega)).symm
            · have hsame : s'' ≤ q + (32 + k) ↔ s'' ≤ q + 32 + k := by omega
              rw [decide_eq_false hk32, Bool.false_or, hmask'' (32 + k) (by omega) (by omega)]
              exact decide_eq_decide.mpr hsame
          refine (e8Blocks_spec h turns (by dsimp only; omega) htrap' (aligned_add haligned')
            (by dsimp only; omega) (by dsimp only; omega) (by dsimp only; omega) hnext).mono ?_
          · rintro state' ⟨hlength'', hrest⟩
            exact ⟨hlength''.trans hlength', hrest⟩

end Blocks

/-- With vector instructions the filter is the same sweep, wherever the data is in memory. -/
theorem lzxE8FilterVector_eq {processTarget : ProcessTarget} {t : ℤ → ℤ → ℤ}
    (h : Translates processTarget t) (avx2 : Bool) (base : ℕ) (data : List UInt8) :
    lzxE8FilterVector avx2 base processTarget data = .ok (filtered t data) := by
  rw [lzxE8FilterVector, filtered]
  split_ifs with hsize
  · rw [sweepFrom_end (by omega)]
  generalize hgoal : sweepFrom (· == 0xE8) 4 10 (rewritten t) data 0 = goal
  have hstart : E8State.Sweeps t goal ⟨data, 0, BitVec.allOnes 64⟩ 0 := by
    refine ⟨le_rfl, Nat.zero_le _, fun k hk => ?_, hgoal⟩
    rw [BitVec.getLsbD_allOnes, decide_eq_true hk, decide_eq_true (Nat.zero_le _)]
  obtain ⟨⟨state, returned⟩, hrun, hlength, hp, ⟨s, hstate⟩, hreturned, haligned⟩ :=
    e8Align_sweeps avx2 base h (data.length + 1) (by dsimp only; omega) (Nat.zero_le _) hstart
      (by dsimp only; omega)
  dsimp only at hlength hp hstate hreturned haligned ⊢
  rw [hrun, C.ok_bind]
  dsimp only
  cases returned with
  | true => rw [if_pos rfl, hreturned rfl]
  | false =>
      rw [if_neg Bool.false_ne_true]
      obtain ⟨data', p, validMask⟩ := state
      dsimp only at hlength hp haligned ⊢
      split_ifs with hblocks
      · generalize htrap : p + (data.length - p) / 32 * 32 - 32 + 4 = trap
        have hlt : trap < data'.length := by omega
        have hset : (data'.set trap 0xE8).length = data'.length := List.length_set
        rw [load_of_lt hlt, C.ok_bind, store, if_pos hlt, C.ok_bind]
        have huntrapped : E8State.untrapped ⟨data'.set trap 0xE8, p, validMask⟩ trap data'[trap] =
            ⟨data', p, validMask⟩ := by
          rw [E8State.untrapped]
          dsimp only
          rw [List.set_set, List.set_getElem_self]
        rw [← huntrapped] at hstate
        obtain ⟨state', hrun', hlength', hp', s', hstate'⟩ :
            Achieves (e8Blocks avx2 base processTarget trap (data.length + 1)
              ⟨data'.set trap 0xE8, p, validMask⟩) _ :=
          e8Blocks_spec h _ (by dsimp only; omega) (List.getElem?_set_self hlt) (haligned rfl)
            (by dsimp only; omega) (by dsimp only; omega) (by dsimp only; omega) hstate
        dsimp only at hlength' hp'
        have hlt' : trap < state'.data.length := by omega
        have hlength'' : (state'.untrapped trap data'[trap]).data.length = data.length := by
          rw [E8State.untrapped]
          dsimp only
          rw [List.length_set]
          omega
        rw [hrun', C.ok_bind, store, if_pos hlt', C.ok_bind, C.ok_bind]
        have hp'' : (state'.untrapped trap data'[trap]).p = trap - 4 := hp'
        change e8Rest processTarget (data.length + 1) (state'.untrapped trap data'[trap]) = _
        exact e8Rest_eq h (data.length + 1) (by omega) (by omega) hstate' (by omega)
      · rw [C.ok_bind]
        exact e8Rest_eq h _ (by dsimp only; omega) hp hstate (by dsimp only; omega)

/-- With SSE2 and with AVX2 the data is preprocessed and postprocessed as it is without. -/
theorem lzxE8FilterVector_eq_lzxE8Filter {data : List UInt8}
    (hmax : data.length ≤ lzxMaxWindowSize) (avx2 : Bool) (base : ℕ) :
    lzxE8FilterVector avx2 base doTranslateTarget data = lzxPreprocess data ∧
      lzxE8FilterVector avx2 base undoTranslateTarget data = lzxPostprocess data := by
  rw [lzxE8FilterVector_eq doTranslateTarget_translates,
    lzxE8FilterVector_eq undoTranslateTarget_translates, lzxPreprocess_eq hmax,
    lzxPostprocess_eq hmax]
  exact ⟨rfl, rfl⟩

/-- A call in the first of two blocks, at an odd address -/
theorem lzxE8FilterVector_eq_call :
    lzxE8FilterVector false 3 doTranslateTarget (nopsCall [0x10, 0, 0, 0] 55)
        = .ok (nopsCall [0x24, 0, 0, 0] 55) ∧
      lzxE8FilterVector false 3 doTranslateTarget (nopsCall [0x10, 0, 0, 0] 55) =
          lzxPreprocess (nopsCall [0x10, 0, 0, 0] 55) ∧
      lzxE8FilterVector false 3 undoTranslateTarget (nopsCall [0x10, 0, 0, 0] 55) =
        lzxPostprocess (nopsCall [0x10, 0, 0, 0] 55) :=
  ⟨by decide +kernel, lzxE8FilterVector_eq_lzxE8Filter (by decide) false 3⟩

end Nawam.Wim
