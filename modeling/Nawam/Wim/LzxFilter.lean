import Mathlib.Data.Int.ModEq
import Nawam.Base.Achieves
import Nawam.Base.CString
import Nawam.Base.Safe
import Nawam.Base.Sweep

/-!
# The E8 filter of LZX

Before data is compressed, the operand behind each byte E8 is changed from an offset
relative to that byte to an absolute one, and after it is decompressed it is changed
back. `filtered` is what the filter is for: a sweep over the data that stops ten bytes
before its end.

The portable loop has no test for the end of the data: it puts bytes E8 in the place of
the last six and relies on it that an operand with one of these in its highest byte is
left alone. `lzxE8Filter_eq` says that it gives the sweep nevertheless, and
`lzxPostprocess_lzxPreprocess` that nothing is lost.
-/

namespace Nawam.Wim

def lzxWimMagicFilesize : ℤ := 12000000

def lzxMaxWindowSize : ℕ := 2 ^ 21

/-- A `u32` as an `s32` -/
def s32 (v : ℕ) : ℤ := (v : ℤ).bmod (2 ^ 32)

/-- `get_unaligned_le32`, into an `s32` -/
def getUnalignedLe32 (data : List UInt8) (target : ℕ) : C ℤ := do
  let v ← loadLE data target 4
  return s32 v

/-- `put_unaligned_le32` of an `s32` -/
def putUnalignedLe32 (data : List UInt8) (target : ℕ) (v : ℤ) : C (List UInt8) :=
  copyInto data target (leBytes 4 (v % 2 ^ 32).toNat)

def doTranslateTarget (data : List UInt8) (target : ℕ) (inputPos : ℤ) : C (List UInt8) := do
  let relOffset ← getUnalignedLe32 data target
  if relOffset ≥ -inputPos ∧ relOffset < lzxWimMagicFilesize then
    if relOffset < lzxWimMagicFilesize - inputPos then
      putUnalignedLe32 data target (relOffset + inputPos)
    else putUnalignedLe32 data target (relOffset - lzxWimMagicFilesize)
  else .ok data

def undoTranslateTarget (data : List UInt8) (target : ℕ) (inputPos : ℤ) : C (List UInt8) := do
  let absOffset ← getUnalignedLe32 data target
  if absOffset ≥ 0 then
    if absOffset < lzxWimMagicFilesize then
      putUnalignedLe32 data target (absOffset - inputPos)
    else .ok data
  else if absOffset ≥ -inputPos then
    putUnalignedLe32 data target (absOffset + lzxWimMagicFilesize)
  else .ok data

/-- `void (*process_target)(void *, s32)` -/
abbrev ProcessTarget : Type := List UInt8 → ℕ → ℤ → C (List UInt8)

/-- `for (;;)` of `lzx_e8_filter`. Each turn takes five bytes. -/
def lzxE8Turns (processTarget : ProcessTarget) (tail : ℕ) : ℕ → List UInt8 → ℕ → C (List UInt8)
  | 0, _, _ => .error .outOfFuel
  | turns + 1, data, p => do
      let p ← scanFrom (· == 0xE8) data p
      if p ≥ tail then .ok data
      else do
        let data ← processTarget data (p + 1) p
        lzxE8Turns processTarget tail turns data (p + 5)

/-- `lzx_e8_filter`, where there is neither SSE2 nor AVX2 -/
def lzxE8Filter (processTarget : ProcessTarget) (data : List UInt8) : C (List UInt8) :=
  if data.length ≤ 10 then .ok data
  else do
    let tail := data.length - 6
    let savedBytes ← loadN data tail 6
    let data ← copyInto data tail (List.replicate 6 0xE8)
    let data ← lzxE8Turns processTarget tail data.length data 0
    copyInto data tail savedBytes

/-! ## The operands -/

section Operand

/-- What `do_translate_target` makes of an offset -/
def absOf (pos rel : ℤ) : ℤ :=
  if rel ≥ -pos ∧ rel < lzxWimMagicFilesize then
    if rel < lzxWimMagicFilesize - pos then rel + pos else rel - lzxWimMagicFilesize
  else rel

/-- What `undo_translate_target` makes of an offset -/
def relOf (pos abs : ℤ) : ℤ :=
  if abs ≥ 0 then if abs < lzxWimMagicFilesize then abs - pos else abs
  else if abs ≥ -pos then abs + lzxWimMagicFilesize else abs

theorem relOf_absOf {pos : ℤ} (hpos : 0 ≤ pos) (rel : ℤ) :
    relOf pos (absOf pos rel) = rel := by
  have hmagic : (0 : ℤ) < lzxWimMagicFilesize := by decide
  rw [absOf]
  split_ifs with hin hgood
  · rw [relOf, if_pos (by omega), if_pos (by omega)]
    omega
  · rw [relOf, if_neg (by omega), if_pos (by omega)]
    omega
  · rw [relOf]
    split_ifs with hnonneg hlt hge
    · omega
    · rfl
    · omega
    · rfl

theorem absOf_relOf {pos : ℤ} (hpos : 0 ≤ pos) (abs : ℤ) :
    absOf pos (relOf pos abs) = abs := by
  have hmagic : (0 : ℤ) < lzxWimMagicFilesize := by decide
  rw [relOf]
  split_ifs with hnonneg hlt hge
  · rw [absOf, if_pos (by omega), if_pos (by omega)]
    omega
  · rw [absOf, if_neg (by omega)]
  · rw [absOf, if_pos (by omega), if_neg (by omega)]
    omega
  · rw [absOf, if_neg (by omega)]

/-- An offset that is far below the data is left as it is. -/
theorem absOf_of_lt {pos rel : ℤ} (h : rel < -pos) : absOf pos rel = rel := by
  rw [absOf, if_neg (by omega)]

theorem relOf_of_lt {pos abs : ℤ} (hpos : 0 ≤ pos) (h : abs < -pos) : relOf pos abs = abs := by
  rw [relOf, if_neg (by omega), if_neg (by omega)]

end Operand

theorem s32_eq (v : ℕ) : s32 v =
    if (v : ℤ) % 2 ^ 32 < 2 ^ 31 then (v : ℤ) % 2 ^ 32 else (v : ℤ) % 2 ^ 32 - 2 ^ 32 := by
  unfold s32
  rw [Int.bmod_def]
  rfl

theorem s32_bounds (v : ℕ) : -2 ^ 31 ≤ s32 v ∧ s32 v < 2 ^ 31 := by
  rw [s32_eq]
  omega

theorem s32_emod {v : ℕ} (h : v < 2 ^ 32) : s32 v % 2 ^ 32 = v := by
  rw [s32_eq]
  omega

theorem s32_written {v : ℤ} (h : -2 ^ 31 ≤ v) (h' : v < 2 ^ 31) :
    s32 (leValue (leBytes 4 (v % 2 ^ 32).toNat)) = v := by
  obtain ⟨n, hn⟩ : ∃ n : ℕ, v % 2 ^ 32 = n := Int.eq_ofNat_of_zero_le (by omega)
  rw [hn, Int.toNat_natCast, leValue_leBytes 4 n (by omega), s32_eq]
  omega

/-- The bytes of an operand at a position, with its offset changed by `t` -/
def rewritten (t : ℤ → ℤ → ℤ) (pos : ℕ) (operand : List UInt8) : List UInt8 :=
  leBytes 4 (t pos (s32 (leValue operand)) % 2 ^ 32).toNat

theorem rewritten_length (t : ℤ → ℤ → ℤ) (pos : ℕ) (operand : List UInt8) :
    (rewritten t pos operand).length = 4 := leBytes_length 4 _

theorem rewritten_of_eq {t : ℤ → ℤ → ℤ} {pos : ℕ} {operand : List UInt8}
    (hlength : operand.length = 4) (h : t pos (s32 (leValue operand)) = s32 (leValue operand)) :
    rewritten t pos operand = operand := by
  have hlt := leValue_lt operand
  rw [hlength] at hlt
  rw [rewritten, h, s32_emod hlt, Int.toNat_natCast, ← hlength, leBytes_leValue]

theorem rewritten_rewritten {t t' : ℤ → ℤ → ℤ} {pos : ℕ} {operand : List UInt8}
    (hlength : operand.length = 4)
    (hrange : ∀ v, -2 ^ 31 ≤ v → v < 2 ^ 31 → -2 ^ 31 ≤ t pos v ∧ t pos v < 2 ^ 31)
    (h : ∀ v, t' pos (t pos v) = v) : rewritten t' pos (rewritten t pos operand) = operand := by
  have hbounds := s32_bounds (leValue operand)
  have hlt := leValue_lt operand
  rw [hlength] at hlt
  obtain ⟨hlow, hhigh⟩ := hrange _ hbounds.1 hbounds.2
  rw [rewritten, rewritten, s32_written hlow hhigh, h, s32_emod hlt, Int.toNat_natCast,
    ← hlength, leBytes_leValue]

/-- What the filter is for: each operand is changed, up to ten bytes before the end. -/
def filtered (t : ℤ → ℤ → ℤ) (data : List UInt8) : List UInt8 :=
  sweepFrom (· == 0xE8) 4 10 (rewritten t) data 0

/-- `processTarget` changes an operand by `t`, and leaves offsets far below the data alone. -/
structure Translates (processTarget : ProcessTarget) (t : ℤ → ℤ → ℤ) : Prop where
  eq : ∀ (data : List UInt8) (target pos : ℕ), target + 4 ≤ data.length →
    processTarget data target pos = .ok (data.take target ++
      (rewritten t pos ((data.drop target).take 4) ++ data.drop (target + 4)))
  far : ∀ (pos : ℕ) (v : ℤ), v < -pos → t pos v = v

theorem getUnalignedLe32_eq {data : List UInt8} {target : ℕ} (h : target + 4 ≤ data.length) :
    getUnalignedLe32 data target = .ok (s32 (leValue ((data.drop target).take 4))) := by
  rw [getUnalignedLe32, loadLE_of_le h, C.ok_bind, C.pure_eq]

section Writes

variable {t : ℤ → ℤ → ℤ} {data : List UInt8} {target pos : ℕ} (h : target + 4 ≤ data.length)

include h

theorem putUnalignedLe32_eq {v : ℤ} (hv : t pos (s32 (leValue ((data.drop target).take 4))) = v) :
    putUnalignedLe32 data target v = .ok (data.take target ++
      (rewritten t pos ((data.drop target).take 4) ++ data.drop (target + 4))) := by
  have hlength := leBytes_length 4 (v % 2 ^ 32).toNat
  rw [putUnalignedLe32, copyInto_of_le (by rw [hlength]; exact h), rewritten, hv, hlength]

theorem unchanged_eq (hv : t pos (s32 (leValue ((data.drop target).take 4))) =
      s32 (leValue ((data.drop target).take 4))) : data = data.take target ++
      (rewritten t pos ((data.drop target).take 4) ++ data.drop (target + 4)) := by
  have hlength : ((data.drop target).take 4).length = 4 := by
    rw [List.length_take, List.length_drop]
    omega
  rw [rewritten_of_eq hlength hv, ← List.drop_drop, List.take_append_drop, List.take_append_drop]

end Writes

theorem doTranslateTarget_translates : Translates doTranslateTarget absOf where
  eq := by
    intro data target pos h
    rw [doTranslateTarget, getUnalignedLe32_eq h, C.ok_bind]
    split_ifs with hin hgood
    · exact putUnalignedLe32_eq h (by rw [absOf, if_pos hin, if_pos hgood])
    · exact putUnalignedLe32_eq h (by rw [absOf, if_pos hin, if_neg hgood])
    · exact congrArg Except.ok (unchanged_eq h (by rw [absOf, if_neg hin]))
  far := fun pos v h => absOf_of_lt h

theorem undoTranslateTarget_translates : Translates undoTranslateTarget relOf where
  eq := by
    intro data target pos h
    rw [undoTranslateTarget, getUnalignedLe32_eq h, C.ok_bind]
    split_ifs with hnonneg hlt hge
    · exact putUnalignedLe32_eq h (by rw [relOf, if_pos hnonneg, if_pos hlt])
    · exact congrArg Except.ok (unchanged_eq h (by rw [relOf, if_pos hnonneg, if_neg hlt]))
    · exact putUnalignedLe32_eq h (by rw [relOf, if_neg hnonneg, if_pos hge])
    · exact congrArg Except.ok (unchanged_eq h (by rw [relOf, if_neg hnonneg, if_neg hge]))
  far := fun pos v h => relOf_of_lt (Int.natCast_nonneg pos) h

/-! ## The portable loop -/

section Portable

variable {processTarget : ProcessTarget} {t : ℤ → ℤ → ℤ} {data saved : List UInt8} {n p : ℕ}

theorem scan_e8 (h : ∃ k, p ≤ k ∧ data[k]? = some 0xE8) :
    Achieves (scanFrom (· == 0xE8) data p) fun k => p ≤ k ∧ data[k]? = some 0xE8 ∧
      ∀ j, p ≤ j → j < k → data[j]? ≠ some 0xE8 := by
  obtain ⟨k, hpk, hk⟩ := h
  have hdrop : ∀ j, (data.drop p)[j]? = data[p + j]? := fun j => List.getElem?_drop
  rw [scanFrom]
  cases hfind : (data.drop p).findIdx? (· == 0xE8) with
  | none =>
      rw [List.findIdx?_eq_none_iff] at hfind
      have hmem : 0xE8 ∈ data.drop p := by
        refine List.mem_of_getElem? (i := k - p) ?_
        rw [hdrop, Nat.add_sub_cancel' hpk, hk]
      exact absurd (hfind _ hmem) (by decide)
  | some i =>
      rw [List.findIdx?_eq_some_iff_getElem] at hfind
      obtain ⟨hi, hat, hbefore⟩ := hfind
      refine .ok ⟨Nat.le_add_right p i, ?_, fun j hpj hj => ?_⟩
      · rw [← hdrop, List.getElem?_eq_getElem hi, eq_of_beq hat]
      · intro heq
        have hlt := hbefore (j - p) (by omega)
        rw [beq_iff_eq] at hlt
        refine hlt ?_
        rw [← Option.some_inj, ← List.getElem?_eq_getElem, hdrop, Nat.add_sub_cancel' hpj, heq]

/-- The highest byte of an operand decides on its sign. -/
theorem s32_of_high : ∀ {operand : List UInt8}, operand.length = 4 →
    operand[3]? = some 0xE8 → s32 (leValue operand) < -lzxMaxWindowSize
  | [a, b, c, d], _, hhigh => by
      have hd : d = 0xE8 := Option.some_inj.mp hhigh
      have ha := a.toNat_lt
      have hb := b.toNat_lt
      have hc := c.toNat_lt
      have hvalue : leValue [a, b, c, d] =
          a.toNat + 256 * (b.toNat + 256 * (c.toNat + 256 * 232)) := by
        rw [hd]
        rfl
      rw [hvalue, s32_eq, lzxMaxWindowSize]
      split <;> omega

/-- The data with the bytes that are saved at its end -/
def restored (data saved : List UInt8) : List UInt8 := data.take (data.length - 6) ++ saved

theorem restored_length (hsaved : saved.length = 6) (h : 10 < data.length) :
    (restored data saved).length = data.length := by
  rw [restored, List.length_append, List.length_take, hsaved]
  omega

theorem restored_getElem? (hp : p + 6 < data.length) : (restored data saved)[p]? = data[p]? := by
  rw [restored, List.getElem?_append_left (by rw [List.length_take]; omega),
    List.getElem?_take_of_lt (by omega)]

theorem e8_of_tail (htail : data.drop (data.length - 6) = List.replicate 6 0xE8) {k : ℕ}
    (hlow : data.length - 6 ≤ k) (hhigh : k < data.length) : data[k]? = some 0xE8 := by
  have hdrop : (data.drop (data.length - 6))[k - (data.length - 6)]? = data[k]? := by
    rw [List.getElem?_drop, Nat.add_sub_cancel' hlow]
  rw [← hdrop, htail, List.getElem?_replicate, if_pos (by omega)]

theorem restored_append {front operand back : List UInt8} (hback : 6 ≤ back.length) :
    restored (front ++ (operand ++ back)) saved =
      front ++ (operand ++ (back.take (back.length - 6) ++ saved)) := by
  have hlength : (front ++ (operand ++ back)).length - 6 =
      front.length + (operand.length + (back.length - 6)) := by
    rw [List.length_append, List.length_append]
    omega
  rw [restored, hlength, List.take_length_add_append, List.take_length_add_append,
    List.append_assoc, List.append_assoc]

theorem around (h : p + 4 ≤ data.length) : ∃ front operand back, front.length = p ∧
    operand.length = 4 ∧ back.length + (p + 4) = data.length ∧
    data = front ++ (operand ++ back) := by
  refine ⟨data.take p, (data.drop p).take 4, data.drop (p + 4), List.length_take_of_le (by omega),
    ?_, ?_, ?_⟩
  · rw [List.length_take, List.length_drop]
    omega
  · rw [List.length_drop]
    omega
  · rw [← List.drop_drop, List.take_append_drop, List.take_append_drop]

/-- Over the bytes E8 at the end the loop gives what the sweep does: it comes by them before it
leaves the data, and what it finds in front of them has one of them as its highest byte. -/
theorem lzxE8Turns_eq (h : Translates processTarget t) (hsaved : saved.length = 6)
    (hsize : 10 < n) (hmax : n ≤ lzxMaxWindowSize) : ∀ (turns : ℕ) {data : List UInt8} {p : ℕ},
    data.length = n → data.drop (n - 6) = List.replicate 6 0xE8 → p < n → n < p + turns + 1 →
    Achieves (lzxE8Turns processTarget (n - 6) turns data p) fun data' => data'.length = n ∧
      restored data' saved = sweepFrom (· == 0xE8) 4 10 (rewritten t) (restored data saved) p
  | 0, _, p, _, _, hp, hturns => absurd hturns (by omega)
  | turns + 1, data, p, hlength, htail, hp, hturns => by
      have hlength' : (restored data saved).length = n := by
        rw [restored_length hsaved (by omega), hlength]
      have hend : ∀ i, n - 10 ≤ i →
          sweepFrom (· == 0xE8) 4 10 (rewritten t) (restored data saved) i =
            restored data saved := fun i hi => sweepFrom_end (by omega)
      have he8 : data[n - 1]? = some 0xE8 :=
        e8_of_tail (by rw [hlength]; exact htail) (by omega) (by omega)
      rw [lzxE8Turns]
      refine (scan_e8 ⟨n - 1, by omega, he8⟩).bind ?_
      rintro k ⟨hpk, hk, hbefore⟩
      have hkn : k < n := hlength ▸ (List.getElem?_eq_some_iff.mp hk).1
      -- what is gone past is not marked
      have hskip : ∀ j, p ≤ j → j ≤ k → j ≤ n - 6 →
          sweepFrom (· == 0xE8) 4 10 (rewritten t) (restored data saved) p =
            sweepFrom (· == 0xE8) 4 10 (rewritten t) (restored data saved) j := by
        intro j hpj hjk hj
        refine sweepFrom_skip hpj (by omega) fun i hi hpi hij => ?_
        rw [beq_eq_false_iff_ne]
        intro heq
        refine hbefore i hpi (by omega) ?_
        have hsame : (restored data saved)[i]? = data[i]? := restored_getElem? (by omega)
        rw [← hsame, List.getElem?_eq_getElem hi, heq]
      have hstop : n - 10 ≤ k →
          sweepFrom (· == 0xE8) 4 10 (rewritten t) (restored data saved) p =
            restored data saved := by
        intro hk
        by_cases hpn : n - 10 ≤ p
        · exact hend p hpn
        · rw [hskip (n - 10) (by omega) hk (by omega), hend _ le_rfl]
      refine .ite (fun htailk => .ok ⟨hlength, (hstop (by omega)).symm⟩) fun htailk => ?_
      have hinside : k + 1 + 4 ≤ data.length := by omega
      obtain ⟨front, operand, back, hfront, hoperand, hback, rfl⟩ := around hinside
      have htake : ((front ++ (operand ++ back)).drop (k + 1)).take 4 = operand := by
        rw [List.drop_left' hfront, List.take_left' hoperand]
      have hdrop : (front ++ (operand ++ back)).drop (k + 1 + 4) = back := by
        rw [← List.drop_drop, List.drop_left' hfront, List.drop_left' hoperand]
      rw [h.eq _ (k + 1) k (by omega), C.ok_bind, htake, hdrop, List.take_left' hfront]
      have hwritten := rewritten_length t k operand
      have hdata : ∀ {op : List UInt8}, op.length = 4 → (front ++ (op ++ back)).length = n := by
        intro op hop
        rw [← hlength]
        simp only [List.length_append, hop, hoperand]
      by_cases hguard : k + 10 < n
      · have hback6 : 6 ≤ back.length := by omega
        have htail' : ∀ {op : List UInt8}, op.length = 4 →
            (front ++ (op ++ back)).drop (n - 6) = List.replicate 6 0xE8 := by
          have hsplit : ∀ {op : List UInt8}, op.length = 4 →
              (front ++ (op ++ back)).drop (n - 6) = back.drop (n - 6 - (k + 1 + 4)) := by
            intro op hop
            have hn : n - 6 = front.length + (op.length + (n - 6 - (k + 1 + 4))) := by omega
            rw [hn, List.drop_length_add_append, List.drop_length_add_append]
            congr 1
            omega
          intro op hop
          rw [hsplit hop, ← hsplit hoperand, htail]
        refine (lzxE8Turns_eq h hsaved hsize hmax turns (hdata hwritten) (htail' hwritten)
          (by omega) (by omega)).mono ?_
        rintro data' ⟨hlength'', hresult⟩
        refine ⟨hlength'', hresult.trans ?_⟩
        have hlt : k < (restored (front ++ (operand ++ back)) saved).length := by omega
        have hmark : ((restored (front ++ (operand ++ back)) saved)[k] == 0xE8) = true := by
          have hsame : (restored (front ++ (operand ++ back)) saved)[k]? = _ :=
            restored_getElem? (by omega)
          rw [hk, List.getElem?_eq_getElem (by omega)] at hsame
          rw [Option.some_inj.mp hsame]
          rfl
        rw [hskip k hpk le_rfl (by omega)]
        refine Eq.trans ?_ (sweepFrom_hit (by decide) (fun i xs _ => rewritten_length t i xs)
          (by omega) (by omega) hmark).symm
        have hright : front.length + (operand.length + 0) = k + 1 + 4 := by omega
        rw [restored_append hback6, restored_append hback6, List.take_left' hfront,
          List.drop_left' hfront, List.take_left' hoperand, ← hright,
          List.drop_length_add_append, List.drop_length_add_append, List.drop_zero]
      · -- the operand has a byte of the tail as its highest one
        have hhigh : operand[3]? = some 0xE8 := by
          have hin : (front ++ (operand ++ back))[k + 1 + 3]? = operand[3]? := by
            rw [← hfront, List.getElem?_append_right (Nat.le_add_right _ _),
              Nat.add_sub_cancel_left, List.getElem?_append_left (by omega)]
          rw [← hin]
          exact e8_of_tail (by rw [hlength]; exact htail) (by omega) (by omega)
        have hkmax : (k : ℤ) ≤ lzxMaxWindowSize := Int.ofNat_le.mpr (hkn.le.trans hmax)
        have hfar : s32 (leValue operand) < -(k : ℤ) :=
          (s32_of_high hoperand hhigh).trans_le (Int.neg_le_neg hkmax)
        rw [rewritten_of_eq hoperand (h.far k _ hfar)]
        refine (lzxE8Turns_eq h hsaved hsize hmax turns hlength htail (by omega) (by omega)).mono ?_
        rintro data' ⟨hlength'', hresult⟩
        exact ⟨hlength'', by rw [hresult, hend _ (by omega), hstop (by omega)]⟩

/-- `lzx_e8_filter` is the sweep, and touches nothing outside of the data. -/
theorem lzxE8Filter_eq (h : Translates processTarget t) (hmax : data.length ≤ lzxMaxWindowSize) :
    lzxE8Filter processTarget data = .ok (filtered t data) := by
  rw [lzxE8Filter, filtered]
  split_ifs with hsize
  · rw [sweepFrom_end (by omega)]
  · have hreplicate : (List.replicate 6 (0xE8 : UInt8)).length = 6 := List.length_replicate
    have hsaved : ((data.drop (data.length - 6)).take 6).length = 6 := by
      rw [List.length_take, List.length_drop]
      omega
    have hfront : (data.take (data.length - 6)).length = data.length - 6 :=
      List.length_take_of_le (by omega)
    have hnothing : data.drop (data.length - 6 + 6) = [] := List.drop_of_length_le (by omega)
    dsimp only
    rw [loadN_of_le (by omega), C.ok_bind, copyInto_of_le (by rw [hreplicate]; omega), C.ok_bind,
      hreplicate, hnothing, List.append_nil]
    generalize hdata : data.take (data.length - 6) ++ List.replicate 6 (0xE8 : UInt8) = data₀
    have hlength : data₀.length = data.length := by
      rw [← hdata, List.length_append, hfront, hreplicate]
      omega
    obtain ⟨data', hrun, hlength', hresult⟩ := lzxE8Turns_eq h hsaved (by omega) hmax data.length
      (p := 0) hlength (by rw [← hdata, List.drop_left' hfront]) (by omega) (by omega)
    have hroom : data.length - 6 + ((data.drop (data.length - 6)).take 6).length ≤
        data'.length := by
      rw [hsaved]
      omega
    have hnothing' : data'.drop (data.length - 6 + 6) = [] := List.drop_of_length_le (by omega)
    rw [hlength, hrun, C.ok_bind, copyInto_of_le hroom, hsaved, hnothing', List.append_nil]
    have hrestored : restored data₀ ((data.drop (data.length - 6)).take 6) = data := by
      have hall : (data.drop (data.length - 6)).take 6 = data.drop (data.length - 6) :=
        List.take_of_length_le (by rw [List.length_drop]; omega)
      rw [restored, hlength, ← hdata, List.take_left' hfront, hall, List.take_append_drop]
    rw [hrestored, restored, hlength'] at hresult
    exact congrArg Except.ok hresult

end Portable

/-! ## There and back -/

def lzxPreprocess (data : List UInt8) : C (List UInt8) := lzxE8Filter doTranslateTarget data

def lzxPostprocess (data : List UInt8) : C (List UInt8) := lzxE8Filter undoTranslateTarget data

theorem filtered_length (t : ℤ → ℤ → ℤ) (data : List UInt8) :
    (filtered t data).length = data.length := by
  rw [filtered, sweepFrom, List.take_zero, List.nil_append, List.drop_zero]
  exact sweep_length (by decide) (fun i xs _ => rewritten_length t i xs) 0 data

/-- Operands that are changed back are as they were. -/
theorem filtered_filtered {t t' : ℤ → ℤ → ℤ} {data : List UInt8}
    (hmax : data.length ≤ lzxMaxWindowSize)
    (hrange : ∀ pos v : ℤ, 0 ≤ pos → pos < 2 ^ 31 → -2 ^ 31 ≤ v → v < 2 ^ 31 →
      -2 ^ 31 ≤ t pos v ∧ t pos v < 2 ^ 31)
    (h : ∀ pos v : ℤ, 0 ≤ pos → t' pos (t pos v) = v) :
    filtered t' (filtered t data) = data := by
  simp only [filtered, sweepFrom, List.take_zero, List.nil_append, List.drop_zero]
  refine sweep_sweep (n := data.length) (by decide) (fun i xs _ => rewritten_length t i xs)
    (fun i xs hi hlength => rewritten_rewritten hlength (fun v => ?_) fun v => ?_) 0 data
    (Nat.zero_add _).le
  · rw [lzxMaxWindowSize] at hmax
    exact hrange i v (Int.natCast_nonneg i) (by omega)
  · exact h i v (Int.natCast_nonneg i)

theorem absOf_range {pos v : ℤ} (hpos : 0 ≤ pos) (hpos' : pos < 2 ^ 31) (hlow : -2 ^ 31 ≤ v)
    (hhigh : v < 2 ^ 31) : -2 ^ 31 ≤ absOf pos v ∧ absOf pos v < 2 ^ 31 := by
  rw [absOf, lzxWimMagicFilesize]
  split_ifs <;> omega

theorem relOf_range {pos v : ℤ} (hpos : 0 ≤ pos) (hpos' : pos < 2 ^ 31) (hlow : -2 ^ 31 ≤ v)
    (hhigh : v < 2 ^ 31) : -2 ^ 31 ≤ relOf pos v ∧ relOf pos v < 2 ^ 31 := by
  rw [relOf, lzxWimMagicFilesize]
  split_ifs <;> omega

section

variable {data : List UInt8} (hmax : data.length ≤ lzxMaxWindowSize)

include hmax

theorem lzxPreprocess_eq : lzxPreprocess data = .ok (filtered absOf data) :=
  lzxE8Filter_eq doTranslateTarget_translates hmax

theorem lzxPostprocess_eq : lzxPostprocess data = .ok (filtered relOf data) :=
  lzxE8Filter_eq undoTranslateTarget_translates hmax

theorem lzxPostprocess_filtered : lzxPostprocess (filtered absOf data) = .ok data := by
  rw [lzxPostprocess_eq (by rw [filtered_length]; exact hmax), filtered_filtered hmax
    (fun pos v => absOf_range) fun pos v hpos => relOf_absOf hpos v]

theorem lzxPreprocess_filtered : lzxPreprocess (filtered relOf data) = .ok data := by
  rw [lzxPreprocess_eq (by rw [filtered_length]; exact hmax), filtered_filtered hmax
    (fun pos v => relOf_range) fun pos v hpos => absOf_relOf hpos v]

/-- Preprocessing loses nothing: postprocessing gives back the data, and no two blocks of data
become one. -/
theorem lzxPostprocess_lzxPreprocess :
    Achieves (lzxPreprocess data) (fun data' => data'.length = data.length ∧
        lzxPostprocess data' = .ok data) ∧
      Achieves (lzxPostprocess data) (fun data' => data'.length = data.length ∧
        lzxPreprocess data' = .ok data) :=
  ⟨⟨_, lzxPreprocess_eq hmax, filtered_length _ _, lzxPostprocess_filtered hmax⟩,
    ⟨_, lzxPostprocess_eq hmax, filtered_length _ _, lzxPreprocess_filtered hmax⟩⟩

end

def nopsCall (operand : List UInt8) (back : ℕ) : List UInt8 :=
  List.replicate 20 0x90 ++ 0xE8 :: operand ++ List.replicate back 0x90

theorem lzxPostprocess_call :
    lzxPreprocess (nopsCall [0x10, 0, 0, 0] 10) = .ok (nopsCall [0x24, 0, 0, 0] 10) ∧
      Achieves (lzxPreprocess (nopsCall [0x10, 0, 0, 0] 10)) (fun data' =>
        data'.length = 35 ∧ lzxPostprocess data' = .ok (nopsCall [0x10, 0, 0, 0] 10)) ∧
      Achieves (lzxPostprocess (nopsCall [0x10, 0, 0, 0] 10)) (fun data' =>
        data'.length = 35 ∧ lzxPreprocess data' = .ok (nopsCall [0x10, 0, 0, 0] 10)) :=
  ⟨by decide +kernel, lzxPostprocess_lzxPreprocess (by decide)⟩

/-- `lzx_compress`, where `impl` is the number of bytes that `c->impl` and `lzx_flush_output`
make of the preprocessed data, 0 if they are too many. The result is with what `in` points to
when the function returns. -/
def lzxCompress (destructive : Bool) (impl : List UInt8 → ℕ) (input : List UInt8) :
    C (ℕ × List UInt8) :=
  if input.length < 64 then .ok (0, input)
  else do
    let preprocessed ← lzxPreprocess input
    let result := impl preprocessed
    if destructive then
      if result = 0 then do
        let restored ← lzxPostprocess preprocessed
        .ok (result, restored)
      else .ok (result, preprocessed)
    else .ok (result, input)

/-- What does not compress is given back as it was, also by a compressor that works in the
caller's buffer. -/
theorem lzxCompress_keeps {input : List UInt8} (hmax : input.length ≤ lzxMaxWindowSize)
    (destructive : Bool) (impl : List UInt8 → ℕ) :
    Achieves (lzxCompress destructive impl input) fun res =>
      res.1 = 0 ∨ destructive = false → res.2 = input := by
  rw [lzxCompress, lzxPreprocess_eq hmax, C.ok_bind]
  dsimp only
  split_ifs with hshort hdestructive hresult
  · exact .ok fun _ => rfl
  · rw [lzxPostprocess_filtered hmax, C.ok_bind]
    exact .ok fun _ => rfl
  · refine .ok fun h => ?_
    rcases h with h | h
    · exact absurd h hresult
    · exact absurd (hdestructive.symm.trans h) (by decide)
  · exact .ok fun _ => rfl

/-- The data has been translated in place when nothing is made of it. -/
theorem lzxCompress_keeps_call :
    lzxPreprocess (nopsCall [0x10, 0, 0, 0] 39) = .ok (nopsCall [0x24, 0, 0, 0] 39) ∧
      Achieves (lzxCompress true (fun _ => 0) (nopsCall [0x10, 0, 0, 0] 39)) fun res =>
        res.1 = 0 ∨ true = false → res.2 = nopsCall [0x10, 0, 0, 0] 39 :=
  ⟨by decide +kernel, lzxCompress_keeps (by decide) true fun _ => 0⟩

end Nawam.Wim
