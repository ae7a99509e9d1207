import Nawam.Base.CString
import Nawam.Base.SevenBit
import Mathlib.Tactic.IntervalCases

/-!
# Object identifiers

`oid_from_str` turns a dotted object identifier into the octets that stand for
it in a signature. The text is read arc by arc with `strtoul`; the first two
arcs share one number, and every number is written in groups of seven bits by
descending shifts into a buffer that is sized by the length of the text.
-/

namespace Nawam

/-! ## `make_flagged_int` and `oid_from_str` -/

/-- What the loop of `make_flagged_int` changes. -/
structure FlaggedInt where
  more : Bool
  value : ℕ
  buf : List UInt8
  bufLen : ℕ

/-- One turn of the loop over the shifts. -/
def flagShift (s : FlaggedInt) (shift : ℕ) : C FlaggedInt :=
  if s.more = true ∨ 2 ^ shift ≤ s.value then do
    let buf ← store s.buf s.bufLen (UInt8.ofNat (0x80 ||| s.value >>> shift))
    return { more := true
             value := s.value - (s.value >>> shift) <<< shift
             buf := buf
             bufLen := s.bufLen + 1 }
  else return s

def makeFlaggedInt (value : ℕ) (buf : List UInt8) (bufLen : ℕ) : C (List UInt8 × ℕ) := do
  let s ← [28, 21, 14, 7].foldlM flagShift ⟨false, value, buf, bufLen⟩
  let buf ← store s.buf s.bufLen (UInt8.ofNat s.value)
  return (buf, s.bufLen + 1)

/-- Where `strtoul(s, &endp, 10)` leaves `endp`: behind the digits, or at the
start when there are none. -/
def strtoulEnd (s : List UInt8) : List UInt8 :=
  let digits := (signOf (s.dropWhile isSpace)).2
  if isDigitOf 10 (digits.headD Ascii.nul) then digits.dropWhile (isDigitOf 10) else s

/-- The test that `oid_from_str` makes of each arc. -/
def goodArc (s : List UInt8) : Bool :=
  isDigit (s.headD Ascii.nul) &&
    ((strtoulEnd s).headD Ascii.nul = Ascii.dot || (strtoulEnd s).headD Ascii.nul = Ascii.nul)

/-- The output of `oid_from_str` while it is filled. -/
structure OidOut where
  val1 : ℕ
  oid : List UInt8
  oidLen : ℕ

/-- What `oid_from_str` does with the value of arc number `arcno` before it
looks for the next arc; `none` for `goto err`. The first arc is only kept. -/
def oidArc (arcno val : ℕ) (out : OidOut) : C (Option OidOut) :=
  if arcno = 1 then return some { out with val1 := val }
  else if arcno = 2 then
    if out.val1 < 2 then
      if 39 < val then return none
      else do
        let oid ← store out.oid out.oidLen (UInt8.ofNat (out.val1 * 40 + val))
        return some { out with oid := oid, oidLen := out.oidLen + 1 }
    else do
      let r ← makeFlaggedInt ((val + 80) % 2 ^ 32) out.oid out.oidLen
      return some { out with oid := r.1, oidLen := r.2 }
  else do
    let r ← makeFlaggedInt val out.oid out.oidLen
    return some { out with oid := r.1, oidLen := r.2 }

/-- The loop of `oid_from_str`: the number of arcs and the output, `none` for
`goto err`. -/
def oidLoop : ℕ → List UInt8 → ℕ → OidOut → C (Option (ℕ × OidOut))
  | 0, _, _, _ => .error .outOfFuel
  | fuel + 1, oidStr, arcno, out => do
      let arcno := arcno + 1
      let val := strtoul 10 oidStr
      let endp := strtoulEnd oidStr
      if !goodArc oidStr then return none
      else if arcno = 1 ∧ 2 < val then
        return some (arcno, out)
      else
        match ← oidArc arcno val out with
        | none => return none
        | some out =>
            if endp.headD Ascii.nul = Ascii.dot then oidLoop fuel endp.tail arcno out
            else return some (arcno, out)

/-- `oid_from_str`: the block and `ret_len`. A string is the bytes in front of
its NUL. -/
def oidFromStr (malloc : ℕ → Option (List UInt8)) (oidStr : Option (List UInt8)) :
    C (Option (List UInt8 × ℕ)) :=
  match oidStr with
  | none => return none
  | some s =>
      if s.headD Ascii.nul = Ascii.nul then return none
      else
        match malloc (1 + s.length + 2) with
        | none => return none
        | some oid => do
            match ← oidLoop (s.length + 1) s 0 ⟨0, oid, 0⟩ with
            | none => return none
            | some (arcno, out) =>
                if arcno = 1 ∨ out.oidLen < 2 ∨ 254 < out.oidLen then return none
                else return some (out.oid, out.oidLen)

/-! ## What an object identifier stands for -/

/-- The text is a dotted list of decimal numbers. -/
inductive Dotted : List UInt8 → List ℕ → Prop
  | last {t : List UInt8} {n : ℕ} : Numeral 10 t n → Dotted t [n]
  | arc {t s : List UInt8} {n : ℕ} {ns : List ℕ} : Numeral 10 t n → Dotted s ns →
      Dotted (t ++ Ascii.dot :: s) (n :: ns)

/-- There are two arcs, and they keep to the limits on the first two. -/
def ArcLimits : List ℕ → Prop
  | a :: b :: _ => a ≤ 2 ∧ (a < 2 → b < 40)
  | _ => False

/-- The contents octets: the first two arcs are one number. -/
def oidOctets : List ℕ → List UInt8
  | a :: b :: ns => ((40 * a + b) :: ns).flatMap sevenBitOctets
  | _ => []

/-- The first number taken apart into two arcs. -/
def arcsOfNumbers : List ℕ → Option (List ℕ)
  | x :: ns =>
      if x < 40 then some (0 :: x :: ns)
      else if x < 80 then some (1 :: (x - 40) :: ns)
      else some (2 :: (x - 80) :: ns)
  | [] => none

def oidArcs (octets : List UInt8) : Option (List ℕ) :=
  (readNumbers none octets).bind arcsOfNumbers

theorem oidArcs_oidOctets : ∀ {arcs : List ℕ}, ArcLimits arcs →
    oidArcs (oidOctets arcs) = some arcs
  | a :: b :: ns, h => by
      obtain ⟨ha, hb⟩ := h
      rw [oidOctets, oidArcs, readNumbers_flatMap, Option.bind_some, arcsOfNumbers]
      interval_cases a
      · have hlt : 40 * 0 + b < 40 := by
          have := hb (by decide)
          omega
        rw [if_pos hlt]
        simp
      · have hlt : 40 * 1 + b < 80 := by
          have := hb (by decide)
          omega
        rw [if_neg (by omega), if_pos hlt]
        simp
      · rw [if_neg (by omega), if_neg (by omega)]
        simp

/-! ## The number encoder -/

/-- The buffer starts with `front`. -/
def Filled (buf front : List UInt8) : Prop := buf.take front.length = front

theorem Filled.length_le {buf front : List UInt8} (h : Filled buf front) :
    front.length ≤ buf.length := by
  have hlen := congrArg List.length h
  rw [List.length_take] at hlen
  omega

theorem store_filled {buf front : List UInt8} (h : Filled buf front)
    (hroom : front.length < buf.length) (b : UInt8) :
    ∃ buf', store buf front.length b = .ok buf' ∧ buf'.length = buf.length ∧
      Filled buf' (front ++ [b]) := by
  refine ⟨buf.set front.length b, if_pos hroom, List.length_set, ?_⟩
  have hlt : front.length < (buf.set front.length b).length := by
    rw [List.length_set]
    exact hroom
  rw [Filled, List.length_append, List.length_singleton, List.take_add_one,
    List.take_set_of_le le_rfl, h, List.getElem?_eq_getElem hlt, List.getElem_set_self]
  rfl

/-- The state of the loop in front of a shift: the groups above `2 ^ k` are
written, and the value is what is left of `v`. -/
structure Flagging (v room : ℕ) (front : List UInt8) (k : ℕ) (s : FlaggedInt) : Prop where
  more : s.more = decide (0 < v / 2 ^ k)
  value : s.value = v % 2 ^ k
  filled : Filled s.buf (front ++ flaggedGroups (v / 2 ^ k))
  bufLen : s.bufLen = (front ++ flaggedGroups (v / 2 ^ k)).length
  length : s.buf.length = room

theorem Flagging.step {v room : ℕ} (shift : ℕ) {front : List UInt8} {s : FlaggedInt}
    (h : Flagging v room front (shift + 7) s)
    (hroom : front.length + (flaggedGroups (v / 2 ^ shift)).length ≤ room) :
    ∃ s', flagShift s shift = .ok s' ∧ Flagging v room front shift s' := by
  have hquot : v / 2 ^ (shift + 7) = v / 2 ^ shift / 128 := by
    rw [Nat.pow_add, ← Nat.div_div_eq_div_mul]
  have hgroup : s.value >>> shift = v / 2 ^ shift % 128 := by
    rw [h.value, Nat.shiftRight_eq_div_pow, Nat.pow_add, Nat.mod_mul_right_div_self]
  have hmod : s.value % 2 ^ shift = v % 2 ^ shift := by
    rw [h.value, Nat.pow_add, Nat.mod_mul_right_mod]
  rcases Nat.eq_zero_or_pos (v / 2 ^ shift) with hzero | hpos
  · -- nothing yet: the value is still below the shift
    have hlt : v < 2 ^ shift := (Nat.div_eq_zero_iff_lt (Nat.two_pow_pos _)).mp hzero
    have hvalue : s.value = v % 2 ^ shift := by
      rw [← hmod, Nat.mod_eq_of_lt]
      rw [h.value]
      exact (Nat.mod_le _ _).trans_lt hlt
    have hmore : s.more = false := by
      rw [h.more, hquot, hzero]
      rfl
    have hskip : ¬(s.more = true ∨ 2 ^ shift ≤ s.value) := by
      rw [hmore, hvalue]
      have := Nat.mod_le v (2 ^ shift)
      simp only [Bool.false_eq_true, false_or]
      omega
    have hnone : flaggedGroups (v / 2 ^ (shift + 7)) = flaggedGroups (v / 2 ^ shift) := by
      rw [hquot, hzero]
    refine ⟨s, if_neg hskip, ?_, hvalue, hnone ▸ h.filled, hnone ▸ h.bufLen, h.length⟩
    rw [hmore, hzero]
    rfl
  · have hgo : s.more = true ∨ 2 ^ shift ≤ s.value := by
      rcases Nat.eq_zero_or_pos (v / 2 ^ (shift + 7)) with hfirst | hlater
      · right
        have hv : v < 2 ^ (shift + 7) := (Nat.div_eq_zero_iff_lt (Nat.two_pow_pos _)).mp hfirst
        rw [h.value, Nat.mod_eq_of_lt hv]
        exact (Nat.div_pos_iff.mp hpos).2
      · left
        rw [h.more, decide_eq_true hlater]
    have hgroups := flaggedGroups_of_pos hpos
    have hlen := congrArg List.length hgroups
    rw [List.length_append, List.length_singleton] at hlen
    have hspace : (front ++ flaggedGroups (v / 2 ^ (shift + 7))).length < s.buf.length := by
      rw [h.length, hquot, List.length_append]
      omega
    obtain ⟨buf, hstore, hbuf, hfill⟩ := store_filled h.filled hspace
      (UInt8.ofNat (0x80 ||| s.value >>> shift))
    have hoctet : UInt8.ofNat (0x80 ||| s.value >>> shift)
        = UInt8.ofNat (128 + v / 2 ^ shift % 128) := by
      rw [hgroup]
      congr 1
      have hlt : v / 2 ^ shift % 128 < 2 ^ 7 := Nat.mod_lt _ (by decide)
      exact (Nat.two_pow_add_eq_or_of_lt hlt 1).symm
    have hfront : front ++ flaggedGroups (v / 2 ^ shift)
        = front ++ flaggedGroups (v / 2 ^ (shift + 7))
          ++ [UInt8.ofNat (0x80 ||| s.value >>> shift)] := by
      rw [hoctet, hgroups, hquot, List.append_assoc]
    refine ⟨{ more := true
              value := s.value - (s.value >>> shift) <<< shift
              buf := buf
              bufLen := (front ++ flaggedGroups (v / 2 ^ (shift + 7))).length + 1 }, ?_, ?_⟩
    · rw [flagShift, if_pos hgo, h.bufLen, hstore, C.ok_bind]
      rfl
    · constructor
      · exact (decide_eq_true hpos).symm
      · have hcut : s.value - (s.value >>> shift) <<< shift = s.value % 2 ^ shift := by
          rw [Nat.shiftRight_eq_div_pow, Nat.shiftLeft_eq, Nat.mul_comm]
          exact Nat.sub_eq_of_eq_add (Nat.mod_add_div _ _).symm
        exact hcut.trans hmod
      · exact hfront ▸ hfill
      · rw [hfront, ← List.concat_eq_append, List.length_concat]
      · exact hbuf.trans h.length

/-- `make_flagged_int` puts the number behind what is there. -/
theorem makeFlaggedInt_spec {v d : ℕ} {buf front : List UInt8} (hv : v < 2 ^ 32)
    (hd : v < 128 ^ (d + 1)) (hfill : Filled buf front)
    (hroom : front.length + (d + 1) ≤ buf.length) :
    ∃ buf', makeFlaggedInt v buf front.length
        = .ok (buf', (front ++ sevenBitOctets v).length) ∧
      buf'.length = buf.length ∧ Filled buf' (front ++ sevenBitOctets v) := by
  have hgroups : ∀ shift, 7 ≤ shift →
      front.length + (flaggedGroups (v / 2 ^ shift)).length ≤ buf.length := by
    intro shift hshift
    have hpow : 2 ^ 7 ≤ 2 ^ shift := Nat.pow_le_pow_right (by decide) hshift
    have hle : v / 2 ^ shift ≤ v / 128 := Nat.div_le_div_left hpow (by decide)
    have hdiv : v / 128 < 128 ^ d := by
      rw [Nat.div_lt_iff_lt_mul (by decide), ← Nat.pow_succ]
      exact hd
    have := flaggedGroups_length_le (hle.trans_lt hdiv)
    omega
  have hstart : Flagging v buf.length front 35 ⟨false, v, buf, front.length⟩ := by
    have hv35 : v < 2 ^ 35 := hv.trans (by decide)
    have hzero : v / 2 ^ 35 = 0 := Nat.div_eq_of_lt hv35
    refine ⟨?_, (Nat.mod_eq_of_lt hv35).symm, ?_, ?_, rfl⟩
    · rw [hzero]
      rfl
    · rw [hzero, flaggedGroups_zero, List.append_nil]
      exact hfill
    · rw [hzero, flaggedGroups_zero, List.append_nil]
  obtain ⟨s₁, hrun₁, h₁⟩ := hstart.step 28 (hgroups 28 (by decide))
  obtain ⟨s₂, hrun₂, h₂⟩ := h₁.step 21 (hgroups 21 (by decide))
  obtain ⟨s₃, hrun₃, h₃⟩ := h₂.step 14 (hgroups 14 (by decide))
  obtain ⟨s₄, hrun₄, h₄⟩ := h₃.step 7 (hgroups 7 (by decide))
  have hloop : [28, 21, 14, 7].foldlM flagShift ⟨false, v, buf, front.length⟩ = .ok s₄ := by
    simp only [List.foldlM_cons, List.foldlM_nil, hrun₁, hrun₂, hrun₃, hrun₄, C.ok_bind,
      C.pure_eq]
  have hspace : (front ++ flaggedGroups (v / 2 ^ 7)).length < s₄.buf.length := by
    have := hgroups 7 le_rfl
    have hdiv : v / 2 ^ 7 < 128 ^ d := by
      rw [Nat.div_lt_iff_lt_mul (by decide)]
      exact hd.trans_eq (Nat.pow_succ ..)
    have := flaggedGroups_length_le hdiv
    rw [h₄.length, List.length_append]
    omega
  obtain ⟨buf', hstore, hlen, hfill'⟩ := store_filled h₄.filled hspace (UInt8.ofNat s₄.value)
  have hoctets : front ++ sevenBitOctets v
      = front ++ flaggedGroups (v / 2 ^ 7) ++ [UInt8.ofNat s₄.value] := by
    rw [h₄.value, sevenBitOctets, List.append_assoc]
    rfl
  refine ⟨buf', ?_, hlen.trans h₄.length, hoctets ▸ hfill'⟩
  rw [makeFlaggedInt, hloop, C.ok_bind, h₄.bufLen, hstore, C.ok_bind, hoctets,
    ← List.concat_eq_append, List.length_concat]
  rfl

/-! ## The text of one arc -/

theorem numeralFrom_lt : ∀ {cs : List UInt8} {v w : ℕ}, numeralFrom 10 v cs = some w →
    w < (v + 1) * 10 ^ cs.length
  | [], v, w, h => by
      simp only [numeralFrom, Option.some.injEq] at h
      simp [h]
  | c :: cs, v, w, h => by
      obtain ⟨d, -, hd, hrest⟩ := numeralFrom_cons_some.mp h
      have ih := numeralFrom_lt hrest
      have hstep : v * 10 + d + 1 ≤ (v + 1) * 10 := by omega
      calc w < (v * 10 + d + 1) * 10 ^ cs.length := ih
        _ ≤ (v + 1) * 10 * 10 ^ cs.length := Nat.mul_le_mul_right _ hstep
        _ = (v + 1) * 10 ^ (c :: cs).length := by
            rw [List.length_cons, Nat.pow_succ', Nat.mul_assoc]

/-- A numeral needs no more octets than it has digits, also with 80 added. -/
theorem numeral_octets {t : List UInt8} {n : ℕ} (h : Numeral 10 t n) :
    ∃ d, t.length = d + 1 ∧ n + 80 < 128 ^ (d + 1) := by
  obtain ⟨hne, hval⟩ := h
  obtain ⟨d, hd⟩ : ∃ d, t.length = d + 1 :=
    Nat.exists_eq_succ_of_ne_zero (List.length_pos_iff.mpr hne).ne'
  refine ⟨d, hd, ?_⟩
  have hlt := numeralFrom_lt hval
  rw [hd, Nat.zero_add, Nat.one_mul] at hlt
  have hgap : ∀ k, 10 ^ (k + 1) + 80 ≤ 128 ^ (k + 1) := by
    intro k
    induction k with
    | zero => decide
    | succ k ih =>
        rw [Nat.pow_succ, Nat.pow_succ 128]
        omega
  have := hgap d
  omega

theorem isDigitOf_ten (c : UInt8) : isDigitOf 10 c = isDigit c := by
  rw [Bool.eq_iff_iff, ← digitValue_lt_ten_iff, isDigitOf]
  cases digitValue c with
  | none => simp
  | some d => simp

section Text

variable {t rest : List UInt8} {n : ℕ}

theorem takeWhile_numeral (rest : List UInt8) (h : Numeral 10 t n)
    (hrest : isDigit (rest.headD Ascii.nul) = false) :
    (t ++ rest).takeWhile (isDigitOf 10) = t ∧ (t ++ rest).dropWhile (isDigitOf 10) = rest := by
  have hall := isDigitOf_of_numeralFrom h.2
  rw [List.takeWhile_append_of_pos hall, List.dropWhile_append_of_pos hall]
  cases rest with
  | nil => simp
  | cons c rest =>
      rw [List.headD_cons, ← isDigitOf_ten] at hrest
      simp [hrest]

/-- A number as `strtoul` gives it back. -/
def saturated (n : ℕ) : ℕ := min n (2 ^ 32 - 1)

/-- `strtoul` on a numeral with something behind it. -/
theorem strtoul_numeral (rest : List UInt8) (h : Numeral 10 t n)
    (hrest : isDigit (rest.headD Ascii.nul) = false) :
    strtoul 10 (t ++ rest) = saturated n ∧ strtoulEnd (t ++ rest) = rest ∧
      isDigit ((t ++ rest).headD Ascii.nul) = true := by
  obtain ⟨htake, hdrop⟩ := takeWhile_numeral rest h hrest
  obtain ⟨hne, hval⟩ := h
  cases t with
  | nil => exact absurd rfl hne
  | cons c t =>
      have hc := isDigitOf_head_of_numeral hval
      have hsign := signOf_dropWhile_of_digit (s := t ++ rest) hc
      rw [List.cons_append] at htake hdrop ⊢
      refine ⟨?_, ?_, ?_⟩
      · simp only [strtoul, hsign, leadingNumeral, htake, hval, Option.getD_some,
          Nat.reduceEqDiff, if_false, Bool.false_eq_true, saturated]
        split
        case isTrue hbig => omega
        case isFalse hsmall => omega
      · rw [strtoulEnd, hsign, List.headD_cons, if_pos hc, hdrop]
      · rw [List.headD_cons, ← isDigitOf_ten]
        exact hc

/-- What an arc leaves when it is the last one, or in front of the next. -/
theorem dotted_iff {s : List UInt8} {ns : List ℕ} :
    Dotted s ns ↔ ∃ n, Numeral 10 (s.takeWhile (isDigitOf 10)) n ∧
      (s.dropWhile (isDigitOf 10) = [] ∧ ns = [n] ∨
        ∃ s' ns', s.dropWhile (isDigitOf 10) = Ascii.dot :: s' ∧ Dotted s' ns' ∧
          ns = n :: ns') := by
  constructor
  · intro h
    cases h with
    | last ht =>
        obtain ⟨htake, hdrop⟩ := takeWhile_numeral [] ht rfl
        rw [List.append_nil] at htake hdrop
        exact ⟨_, htake.symm ▸ ht, .inl ⟨hdrop, rfl⟩⟩
    | arc ht hs =>
        obtain ⟨htake, hdrop⟩ := takeWhile_numeral (Ascii.dot :: _) ht rfl
        exact ⟨_, htake.symm ▸ ht, .inr ⟨_, _, hdrop, hs, rfl⟩⟩
  · rintro ⟨n, ht, ⟨hnil, rfl⟩ | ⟨s', ns', hdot, hs', rfl⟩⟩
    · rw [← List.takeWhile_append_dropWhile (p := isDigitOf 10) (l := s), hnil,
        List.append_nil]
      exact .last ht
    · rw [← List.takeWhile_append_dropWhile (p := isDigitOf 10) (l := s), hdot]
      exact .arc ht hs'

theorem dotted_last_iff {ns : List ℕ} (h : Numeral 10 t n) : Dotted t ns ↔ ns = [n] := by
  obtain ⟨htake, hdrop⟩ := takeWhile_numeral [] h rfl
  rw [List.append_nil] at htake hdrop
  rw [dotted_iff, htake, hdrop]
  constructor
  · rintro ⟨m, hm, ⟨-, rfl⟩ | ⟨_, _, hno, -⟩⟩
    · cases h.2.symm.trans hm.2
      rfl
    · cases hno
  · rintro rfl
    exact ⟨n, h, .inl ⟨rfl, rfl⟩⟩

theorem dotted_arc_iff {s : List UInt8} {ns : List ℕ} (h : Numeral 10 t n) :
    Dotted (t ++ Ascii.dot :: s) ns ↔ ∃ ns', Dotted s ns' ∧ ns = n :: ns' := by
  obtain ⟨htake, hdrop⟩ := takeWhile_numeral (Ascii.dot :: s) h rfl
  rw [dotted_iff, htake, hdrop]
  constructor
  · rintro ⟨m, hm, ⟨hno, -⟩ | ⟨_, ns', ⟨⟩, hs, rfl⟩⟩
    · cases hno
    · cases h.2.symm.trans hm.2
      exact ⟨ns', hs, rfl⟩
  · rintro ⟨ns', hs, rfl⟩
    exact ⟨n, h, .inr ⟨s, ns', rfl, hs, rfl⟩⟩

/-- A text is a last arc, an arc in front of another one, or it fails the test
and is no list of numbers. -/
theorem arc_cases {s : List UInt8} (hnul : Ascii.nul ∉ s) :
    (∃ n, Numeral 10 s n) ∨
    (∃ t n s', s = t ++ Ascii.dot :: s' ∧ Numeral 10 t n) ∨
    (goodArc s = false ∧ ∀ ns, ¬Dotted s ns) := by
  have hsplit := List.takeWhile_append_dropWhile (p := isDigitOf 10) (l := s)
  by_cases hnone : s.takeWhile (isDigitOf 10) = []
  · right; right
    constructor
    · have hhead : isDigit (s.headD Ascii.nul) = false := by
        cases s with
        | nil => rfl
        | cons c s =>
            rw [List.headD_cons, ← isDigitOf_ten]
            simpa [List.takeWhile_cons] using hnone
      rw [goodArc, hhead, Bool.false_and]
    · intro ns h
      obtain ⟨n, hn, -⟩ := dotted_iff.mp h
      exact hn.1 hnone
  · obtain ⟨n, hn⟩ : ∃ n, Numeral 10 (s.takeWhile (isDigitOf 10)) n := by
      have hdigits : ∀ c ∈ s.takeWhile (isDigitOf 10), isDigitOf 10 c = true :=
        fun c hc => List.mem_takeWhile_imp hc
      obtain ⟨n, hn⟩ := exists_numeralFrom 0 hdigits
      exact ⟨n, hnone, hn⟩
    cases hrest : s.dropWhile (isDigitOf 10) with
    | nil =>
        rw [hrest, List.append_nil] at hsplit
        exact .inl ⟨n, hsplit ▸ hn⟩
    | cons c rest =>
        rw [hrest] at hsplit
        by_cases hdot : c = Ascii.dot
        · exact .inr (.inl ⟨_, n, rest, hdot ▸ hsplit.symm, hn⟩)
        · right; right
          have hc : isDigit ((c :: rest).headD Ascii.nul) = false := by
            have hhead := List.head_dropWhile_not (p := isDigitOf 10) (l := s)
              (by simp [hrest])
            simp only [hrest, List.head_cons] at hhead
            rw [List.headD_cons, ← isDigitOf_ten, hhead]
          have hend := (strtoul_numeral _ hn hc).2.1
          have hne : c ≠ Ascii.nul := by
            rintro rfl
            exact hnul (hsplit ▸ List.mem_append_right _ List.mem_cons_self)
          constructor
          · rw [goodArc, ← hsplit, hend, List.headD_cons]
            simp [hdot, hne]
          · intro ns h
            obtain ⟨m, -, ⟨hno, -⟩ | ⟨_, _, hno, -⟩⟩ := dotted_iff.mp h
            · rw [hrest] at hno
              cases hno
            · rw [hrest] at hno
              cases hno
              exact hdot rfl

end Text

theorem Dotted.unique {s : List UInt8} {ns : List ℕ} (h : Dotted s ns) :
    ∀ {ms : List ℕ}, Dotted s ms → ms = ns := by
  induction h with
  | last ht =>
      intro ms hms
      exact (dotted_last_iff ht).mp hms
  | arc ht _ ih =>
      intro ms hms
      obtain ⟨ms', hms', rfl⟩ := (dotted_arc_iff ht).mp hms
      rw [ih hms']

/-! ## The loop over the arcs -/

/-- The output holds the octets, in the block that it was given. -/
structure OidOut.Holds (out : OidOut) (room : ℕ) (octets : List UInt8) : Prop where
  filled : Filled out.oid octets
  oidLen : out.oidLen = octets.length
  length : out.oid.length = room

section Loop

variable {t s : List UInt8} {n arcno fuel room : ℕ} {out out' : OidOut} {front : List UInt8}

theorem oidLoop_bad (h : goodArc s = false) :
    oidLoop (fuel + 1) s arcno out = .ok none := by
  rw [oidLoop, h]
  rfl

/-- An arc that passes the test, with the end of the text or a dot behind it. -/
theorem oidLoop_good (fuel arcno : ℕ) (out : OidOut) (rest : List UInt8) (h : Numeral 10 t n)
    (hrest : rest.headD Ascii.nul = Ascii.nul ∨ rest.headD Ascii.nul = Ascii.dot) :
    oidLoop (fuel + 1) (t ++ rest) arcno out
      = if arcno + 1 = 1 ∧ 2 < saturated n then .ok (some (arcno + 1, out))
        else do
          match ← oidArc (arcno + 1) (saturated n) out with
          | none => return none
          | some out' =>
              if rest.headD Ascii.nul = Ascii.dot then
                oidLoop fuel rest.tail (arcno + 1) out'
              else return some (arcno + 1, out') := by
  have hnodigit : isDigit (rest.headD Ascii.nul) = false := by
    rcases hrest with hnul | hdot
    · rw [hnul]
      rfl
    · rw [hdot]
      rfl
  obtain ⟨hval, hend, hdigit⟩ := strtoul_numeral rest h hnodigit
  have hgood : goodArc (t ++ rest) = true := by
    rw [goodArc, hend, hdigit]
    rcases hrest with hnul | hdot
    · rw [hnul]
      rfl
    · rw [hdot]
      rfl
  rw [oidLoop, hgood, hval, hend]
  rfl

theorem oidLoop_last (h : Numeral 10 t n) (hgo : ¬(arcno + 1 = 1 ∧ 2 < saturated n)) :
    oidLoop (fuel + 1) t arcno out = (do
      match ← oidArc (arcno + 1) (saturated n) out with
      | none => return none
      | some out' => return some (arcno + 1, out')) := by
  have hstep := oidLoop_good fuel arcno out [] h (.inl rfl)
  rw [List.append_nil, if_neg hgo] at hstep
  exact hstep

theorem oidLoop_arc (h : Numeral 10 t n) (hgo : ¬(arcno + 1 = 1 ∧ 2 < saturated n)) :
    oidLoop (fuel + 1) (t ++ Ascii.dot :: s) arcno out = (do
      match ← oidArc (arcno + 1) (saturated n) out with
      | none => return none
      | some out' => oidLoop fuel s (arcno + 1) out') := by
  rw [oidLoop_good fuel arcno out _ h (.inr rfl), if_neg hgo]
  rfl

theorem OidOut.Holds.number {v d : ℕ} (hout : out.Holds room front) (hv : v < 2 ^ 32)
    (hd : v < 128 ^ (d + 1)) (hroom : front.length + (d + 1) ≤ room) :
    ∃ out' : OidOut, (makeFlaggedInt v out.oid out.oidLen >>= fun r =>
        pure (some { out with oid := r.1, oidLen := r.2 })) = (.ok (some out') : C _) ∧
      out'.Holds room (front ++ sevenBitOctets v) := by
  obtain ⟨buf, hrun, hlen, hfill⟩ :=
    makeFlaggedInt_spec hv hd hout.filled (hout.length.symm ▸ hroom)
  rw [hout.oidLen, hrun]
  exact ⟨_, rfl, hfill, rfl, hlen.trans hout.length⟩

theorem saturated_lt (n : ℕ) : saturated n < 2 ^ 32 := by
  rw [saturated]
  omega

theorem saturated_le (n : ℕ) : saturated n ≤ n := min_le_left ..

theorem oidArc_later (hout : out.Holds room front) (h : Numeral 10 t n) (harc : 3 ≤ arcno)
    (hroom : front.length + t.length ≤ room) :
    ∃ out', oidArc arcno (saturated n) out = .ok (some out') ∧
      out'.Holds room (front ++ sevenBitOctets (saturated n)) ∧
      (sevenBitOctets (saturated n)).length ≤ t.length := by
  obtain ⟨d, hlen, hfits⟩ := numeral_octets h
  have hd : saturated n < 128 ^ (d + 1) := by
    have := saturated_le n
    omega
  rw [hlen] at hroom
  obtain ⟨out', hrun, hout'⟩ := hout.number (saturated_lt n) hd hroom
  refine ⟨out', ?_, hout', hlen ▸ sevenBitOctets_length_le hd⟩
  rw [oidArc, if_neg (by omega), if_neg (by omega)]
  exact hrun

/-- From the third arc on the loop appends what is there, or the text is no
list of numbers. -/
theorem oidLoop_later : ∀ {fuel arcno : ℕ} {s : List UInt8} {out : OidOut}
    {front : List UInt8}, Ascii.nul ∉ s → s.length < fuel → 2 ≤ arcno →
    out.Holds room front → front.length + s.length ≤ room →
    (∃ ns out', Dotted s ns ∧ oidLoop fuel s arcno out = .ok (some (arcno + ns.length, out')) ∧
      out'.Holds room (front ++ (ns.map saturated).flatMap sevenBitOctets)) ∨
    ((∀ ns, ¬Dotted s ns) ∧ oidLoop fuel s arcno out = .ok none)
  | fuel + 1, arcno, s, out, front, hnul, hfuel, harc, hout, hroom => by
      have hgo : ∀ n, ¬(arcno + 1 = 1 ∧ 2 < saturated n) := fun n h => by omega
      rcases arc_cases hnul with ⟨n, ht⟩ | ⟨t, n, s', rfl, ht⟩ | ⟨hbad, hno⟩
      · left
        obtain ⟨out', hrun, hout', -⟩ := oidArc_later hout ht (Nat.succ_le_succ harc) hroom
        refine ⟨[n], out', .last ht, ?_, by simpa using hout'⟩
        rw [oidLoop_last ht (hgo n), hrun]
        rfl
      · rw [List.length_append, List.length_cons] at hroom hfuel
        obtain ⟨out', hrun, hout', hlen⟩ := oidArc_later hout ht (Nat.succ_le_succ harc)
          (show front.length + t.length ≤ room by omega)
        have hstep : oidLoop (fuel + 1) (t ++ Ascii.dot :: s') arcno out
            = oidLoop fuel s' (arcno + 1) out' := by
          rw [oidLoop_arc ht (hgo n), hrun]
          rfl
        have hnul' : Ascii.nul ∉ s' := fun h =>
          hnul (List.mem_append_right _ (List.mem_cons_of_mem _ h))
        have hroom' : (front ++ sevenBitOctets (saturated n)).length + s'.length ≤ room := by
          rw [List.length_append]
          omega
        rcases oidLoop_later hnul' (show s'.length < fuel by omega)
            (Nat.le_succ_of_le harc) hout' hroom' with
          ⟨ns, out'', hs', hrest, hout''⟩ | ⟨hno, hrest⟩
        · left
          refine ⟨n :: ns, out'', .arc ht hs', ?_, ?_⟩
          · rw [hstep, hrest, List.length_cons, Nat.succ_add, Nat.add_succ]
          · rw [List.map_cons, List.flatMap_cons, ← List.append_assoc]
            exact hout''
        · right
          refine ⟨fun ms hms => ?_, hstep.trans hrest⟩
          obtain ⟨ns, hns, -⟩ := (dotted_arc_iff ht).mp hms
          exact hno ns hns
      · exact .inr ⟨hno, oidLoop_bad hbad⟩

/-! ## The first two arcs -/

/-- The number that the first two arcs make, as the code computes it. -/
def firstNumber (a b : ℕ) : ℕ :=
  if a < 2 then 40 * a + b else (saturated b + 80) % 2 ^ 32

/-- The second arc goes out with the first. -/
theorem oidArc_second (hout : out.Holds room []) (h : Numeral 10 t n)
    (hlim : out.val1 < 2 → n < 40) (hroom : t.length ≤ room) :
    ∃ out', oidArc 2 (saturated n) out = .ok (some out') ∧
      out'.Holds room (sevenBitOctets (firstNumber out.val1 n)) ∧
      (sevenBitOctets (firstNumber out.val1 n)).length ≤ t.length := by
  obtain ⟨d, hlen, hfits⟩ := numeral_octets h
  rw [oidArc, if_neg (by decide), if_pos rfl]
  by_cases hval : out.val1 < 2
  · have hn : saturated n = n := by
      have := hlim hval
      rw [saturated]
      omega
    have hsmall : 40 * out.val1 + n < 128 := by
      have := hlim hval
      omega
    have hempty : ([] : List UInt8).length < out.oid.length := by
      rw [hout.length, List.length_nil]
      omega
    obtain ⟨buf, hstore, hbuf, hfill⟩ := store_filled hout.filled hempty
      (UInt8.ofNat (out.val1 * 40 + saturated n))
    have hnot : ¬39 < saturated n := by
      have := hlim hval
      omega
    rw [if_pos hval, if_neg hnot, hout.oidLen, hstore, firstNumber, if_pos hval,
      sevenBitOctets_of_lt hsmall]
    rw [hn, Nat.mul_comm] at hfill
    refine ⟨_, rfl, ⟨hfill, rfl, hbuf.trans hout.length⟩, ?_⟩
    rw [hlen, List.length_singleton]
    exact Nat.le_add_left 1 d
  · have hle : (saturated n + 80) % 2 ^ 32 ≤ n + 80 :=
      (Nat.mod_le _ _).trans (Nat.add_le_add_right (saturated_le n) 80)
    have hd : (saturated n + 80) % 2 ^ 32 < 128 ^ (d + 1) := hle.trans_lt hfits
    have hroom' : ([] : List UInt8).length + (d + 1) ≤ room := by
      rw [List.length_nil, Nat.zero_add, ← hlen]
      exact hroom
    obtain ⟨out', hrun, hout'⟩ := hout.number (Nat.mod_lt _ (by decide)) hd hroom'
    rw [if_neg hval, firstNumber, if_neg hval]
    exact ⟨out', hrun, hout', hlen ▸ sevenBitOctets_length_le hd⟩

/-- From the second arc on: the octets of all that follows, or the text breaks
a rule. -/
theorem oidLoop_second (hnul : Ascii.nul ∉ s) (hfuel : s.length < fuel)
    (hout : out.Holds room []) (hroom : s.length ≤ room) :
    (∃ b ns out', Dotted s (b :: ns) ∧ (out.val1 < 2 → b < 40) ∧
      oidLoop fuel s 1 out = .ok (some (2 + ns.length, out')) ∧
      out'.Holds room ((firstNumber out.val1 b :: ns.map saturated).flatMap sevenBitOctets)) ∨
    ((∀ b ns, Dotted s (b :: ns) → ¬(out.val1 < 2 → b < 40)) ∧
      oidLoop fuel s 1 out = .ok none) := by
  obtain ⟨fuel, rfl⟩ := Nat.exists_eq_succ_of_ne_zero (Nat.ne_zero_of_lt hfuel)
  have hgo : ∀ n, ¬(1 + 1 = 1 ∧ 2 < saturated n) := fun n h => by omega
  -- the second arc is refused when it is too large for the first
  have hrefuse : ∀ n, ¬(out.val1 < 2 → n < 40) → oidArc 2 (saturated n) out = .ok none := by
    intro n hlim
    obtain ⟨hval, hn⟩ := Classical.not_imp.mp hlim
    have hbig : 39 < saturated n := by
      rw [saturated]
      omega
    rw [oidArc, if_neg (by decide), if_pos rfl, if_pos hval, if_pos hbig]
    rfl
  rcases arc_cases hnul with ⟨n, ht⟩ | ⟨t, n, s', rfl, ht⟩ | ⟨hbad, hno⟩
  · by_cases hlim : out.val1 < 2 → n < 40
    · obtain ⟨out', hrun, hout', -⟩ := oidArc_second hout ht hlim hroom
      refine .inl ⟨n, [], out', .last ht, hlim, ?_, by simpa using hout'⟩
      rw [oidLoop_last ht (hgo n), hrun]
      rfl
    · refine .inr ⟨fun b ns h => ?_, ?_⟩
      · cases (dotted_last_iff ht).mp h
        exact hlim
      · rw [oidLoop_last ht (hgo n), hrefuse n hlim]
        rfl
  · rw [List.length_append, List.length_cons] at hroom hfuel
    by_cases hlim : out.val1 < 2 → n < 40
    · obtain ⟨out', hrun, hout', hlen⟩ := oidArc_second hout ht hlim
        (show t.length ≤ room by omega)
      have hstep : oidLoop (fuel + 1) (t ++ Ascii.dot :: s') 1 out
          = oidLoop fuel s' 2 out' := by
        rw [oidLoop_arc ht (hgo n), hrun]
        rfl
      have hnul' : Ascii.nul ∉ s' := fun h =>
        hnul (List.mem_append_right _ (List.mem_cons_of_mem _ h))
      have hroom' : (sevenBitOctets (firstNumber out.val1 n)).length + s'.length ≤ room := by
        omega
      rcases oidLoop_later hnul' (show s'.length < fuel by omega) le_rfl hout' hroom' with
        ⟨ns, out'', hs', hrest, hout''⟩ | ⟨hno, hrest⟩
      · exact .inl ⟨n, ns, out'', .arc ht hs', hlim, hstep.trans hrest, hout''⟩
      · refine .inr ⟨fun b ns h => ?_, hstep.trans hrest⟩
        obtain ⟨ms, hms, -⟩ := (dotted_arc_iff ht).mp h
        exact absurd hms (hno ms)
    · refine .inr ⟨fun b ns h => ?_, ?_⟩
      · obtain ⟨ms, -, heq⟩ := (dotted_arc_iff ht).mp h
        cases heq
        exact hlim
      · rw [oidLoop_arc ht (hgo n), hrefuse n hlim]
        rfl
  · exact .inr ⟨fun b ns h => absurd h (hno _), oidLoop_bad hbad⟩

end Loop

/-- What `oid_from_str` makes of the outcome of its loop. -/
theorem oidFromStr_eq {malloc : ℕ → Option (List UInt8)} {c : UInt8} {s block : List UInt8}
    (hc : c ≠ Ascii.nul) (hmalloc : malloc (1 + (c :: s).length + 2) = some block) :
    oidFromStr malloc (some (c :: s)) = (do
      match ← oidLoop ((c :: s).length + 1) (c :: s) 0 ⟨0, block, 0⟩ with
      | none => return none
      | some (arcno, out) =>
          if arcno = 1 ∨ out.oidLen < 2 ∨ 254 < out.oidLen then return none
          else return some (out.oid, out.oidLen)) := by
  simp only [oidFromStr, List.headD_cons, hmalloc]
  rw [if_neg hc]

/-- What `oid_from_str` gives back for a text with a block of its size: the
octets of the numbers in it, if their count is in the range, or NULL. -/
theorem oidFromStr_cases {malloc : ℕ → Option (List UInt8)} {s block : List UInt8}
    (hnul : Ascii.nul ∉ s) (hmalloc : malloc (1 + s.length + 2) = some block)
    (hblock : block.length = 1 + s.length + 2) :
    (∃ a b ns oid octets, Dotted s (a :: b :: ns) ∧ ArcLimits (a :: b :: ns) ∧
      octets = (firstNumber a b :: ns.map saturated).flatMap sevenBitOctets ∧
      Filled oid octets ∧ oid.length = block.length ∧
      oidFromStr malloc (some s) = if octets.length < 2 ∨ 254 < octets.length then .ok none
        else .ok (some (oid, octets.length))) ∨
    ((¬∃ arcs, Dotted s arcs ∧ ArcLimits arcs) ∧ oidFromStr malloc (some s) = .ok none) := by
  cases s with
  | nil =>
      refine .inr ⟨?_, rfl⟩
      rintro ⟨arcs, h, -⟩
      obtain ⟨n, hn, -⟩ := dotted_iff.mp h
      exact hn.1 rfl
  | cons c s =>
    have hc : c ≠ Ascii.nul := fun h => hnul (h ▸ List.mem_cons_self)
    have hrun := oidFromStr_eq hc hmalloc
    have hfuel : (c :: s).length < (c :: s).length + 1 := Nat.lt_succ_self _
    generalize c :: s = text at hnul hmalloc hblock hrun hfuel ⊢
    rcases arc_cases hnul with ⟨n, ht⟩ | ⟨t, n, s', rfl, ht⟩ | ⟨hbad, hno⟩
    · right
      constructor
      · rintro ⟨arcs, h, hlim⟩
        cases (dotted_last_iff ht).mp h
        exact hlim
      · -- a single arc, whatever it is
        by_cases hbig : 2 < saturated n
        · have hstep := oidLoop_good text.length 0 ⟨0, block, 0⟩ [] ht (.inl rfl)
          rw [List.append_nil, if_pos ⟨rfl, hbig⟩] at hstep
          rw [hrun, hstep]
          rfl
        · rw [hrun, oidLoop_last ht fun h => hbig h.2]
          rfl
    · by_cases hbig : 2 < saturated n
      · right
        constructor
        · rintro ⟨arcs, h, hlim⟩
          obtain ⟨ns, -, rfl⟩ := (dotted_arc_iff ht).mp h
          have hn := saturated_le n
          cases ns with
          | nil => exact hlim
          | cons b ns =>
              have := hlim.1
              omega
        · rw [hrun, oidLoop_good _ 0 _ _ ht (.inr rfl), if_pos ⟨rfl, hbig⟩]
          rfl
      · have hn : saturated n = n ∧ n ≤ 2 := by
          rw [saturated] at hbig ⊢
          omega
        have hstep : oidLoop ((t ++ Ascii.dot :: s').length + 1) (t ++ Ascii.dot :: s') 0
              ⟨0, block, 0⟩
            = oidLoop (t ++ Ascii.dot :: s').length s' 1 ⟨n, block, 0⟩ := by
          rw [oidLoop_arc ht fun h => hbig h.2, hn.1]
          rfl
        have hnul' : Ascii.nul ∉ s' := fun h =>
          hnul (List.mem_append_right _ (List.mem_cons_of_mem _ h))
        have hlen : s'.length < (t ++ Ascii.dot :: s').length := by
          rw [List.length_append, List.length_cons]
          omega
        have hstart : (⟨n, block, 0⟩ : OidOut).Holds block.length [] :=
          ⟨rfl, rfl, rfl⟩
        rcases oidLoop_second hnul' hlen hstart (show s'.length ≤ block.length by omega) with
          ⟨b, ns, out, hs', hlim, hloop, hout⟩ | ⟨hno, hloop⟩
        · left
          refine ⟨n, b, ns, out.oid, _, .arc ht hs', ⟨hn.2, hlim⟩, rfl, hout.filled,
            hout.length, ?_⟩
          rw [hrun, hstep, hloop, ← hout.oidLen]
          have hmany : ¬2 + ns.length = 1 := by omega
          simp only [C.ok_bind, hmany, false_or]
          rfl
        · right
          constructor
          · rintro ⟨arcs, h, hlim⟩
            obtain ⟨ns, hns, rfl⟩ := (dotted_arc_iff ht).mp h
            cases ns with
            | nil => exact hlim
            | cons b ns => exact hno b ns hns hlim.2
          · rw [hrun, hstep, hloop]
            rfl
    · refine .inr ⟨fun ⟨arcs, h, _⟩ => hno arcs h, ?_⟩
      rw [hrun, oidLoop_bad hbad]
      rfl

/-- Arcs below `2 ^ 32 - 80` go out as they are. -/
theorem numbers_of_small {a b : ℕ} {ns : List ℕ} (hlim : ArcLimits (a :: b :: ns))
    (hsmall : ∀ n ∈ a :: b :: ns, n < 2 ^ 32 - 80) :
    (firstNumber a b :: ns.map saturated).flatMap sevenBitOctets
      = oidOctets (a :: b :: ns) := by
  have hsat : ∀ n ∈ a :: b :: ns, saturated n = n := by
    intro n hn
    have := hsmall n hn
    rw [saturated]
    omega
  have hfirst : firstNumber a b = 40 * a + b := by
    have hb : b < 2 ^ 32 - 80 := hsmall b (by simp)
    rw [firstNumber]
    split
    case isTrue => rfl
    case isFalse ha =>
        have ha2 : a = 2 := le_antisymm hlim.1 (Nat.le_of_not_lt ha)
        rw [hsat b (by simp), Nat.mod_eq_of_lt (by omega), ha2]
        omega
  have hrest : ns.map saturated = ns :=
    (List.map_congr_left fun n hn => hsat n (by simp [hn])).trans (List.map_id ns)
  rw [hfirst, hrest, oidOctets]

/-- `oid_from_str` returns the contents octets of the object identifiers in
its range, in a block of the size it asked for, and they stand for the arcs;
for any other text that is no list of arcs within the limits it returns NULL. -/
theorem oidFromStr_encodes {malloc : ℕ → Option (List UInt8)} {s : List UInt8}
    (hnul : Ascii.nul ∉ s)
    (hmalloc : ∀ n block, malloc n = some block → block.length = n) :
    (∀ arcs, Dotted s arcs → ArcLimits arcs → (∀ n ∈ arcs, n < 2 ^ 32 - 80) →
      2 ≤ (oidOctets arcs).length → (oidOctets arcs).length ≤ 254 →
      malloc (1 + s.length + 2) ≠ none →
      oidArcs (oidOctets arcs) = some arcs ∧
      ∃ oid, oidFromStr malloc (some s) = .ok (some (oid, (oidOctets arcs).length)) ∧
        oid.length = 1 + s.length + 2 ∧ oid.take (oidOctets arcs).length = oidOctets arcs) ∧
    ((¬∃ arcs, Dotted s arcs ∧ ArcLimits arcs) → oidFromStr malloc (some s) = .ok none) := by
  cases hblock : malloc (1 + s.length + 2) with
  | none =>
      refine ⟨fun arcs _ _ _ _ _ hne => absurd rfl hne, fun _ => ?_⟩
      simp only [oidFromStr, hblock]
      split
      · rfl
      · rfl
  | some block =>
      have hlen := hmalloc _ _ hblock
      rcases oidFromStr_cases hnul hblock hlen with
        ⟨a, b, ns, oid, octets, hs, hlim, hoctets, hfill, hoid, hrun⟩ | ⟨hno, hrun⟩
      · refine ⟨fun arcs harcs hlimits hsmall hmin hmax _ => ?_, fun hno => ?_⟩
        · obtain rfl := hs.unique harcs
          rw [numbers_of_small hlim hsmall] at hoctets
          subst hoctets
          have hrange : ¬((oidOctets (a :: b :: ns)).length < 2 ∨
              254 < (oidOctets (a :: b :: ns)).length) := by omega
          rw [if_neg hrange] at hrun
          exact ⟨oidArcs_oidOctets hlim, oid, hrun, hoid.trans hlen, hfill⟩
        · exact absurd ⟨_, hs, hlim⟩ hno
      · exact ⟨fun arcs harcs hlim _ _ _ _ => absurd ⟨arcs, harcs, hlim⟩ hno, fun _ => hrun⟩

/-- `1.2.840`, as it stands in a text and in a signature. -/
theorem oidFromStr_encodes_rsadsi :
    oidArcs [0x2A, 0x86, 0x48] = some [1, 2, 840] ∧
    ∃ oid, oidFromStr (fun n => some (List.replicate n 0)) (some (Ascii.text "1.2.840"))
        = .ok (some (oid, 3)) ∧
      oid.length = 10 ∧ oid.take 3 = [0x2A, 0x86, 0x48] := by
  have htext : Ascii.text "1.2.840"
      = [49] ++ Ascii.dot :: ([50] ++ Ascii.dot :: [56, 52, 48]) := by decide
  have harcs : Dotted (Ascii.text "1.2.840") [1, 2, 840] :=
    htext ▸ .arc (by decide) (.arc (by decide) (.last (by decide)))
  have hmalloc : ∀ n block, some (List.replicate n (0 : UInt8)) = some block →
      block.length = n := by
    rintro n _ ⟨⟩
    exact List.length_replicate
  have hlimits : ArcLimits [1, 2, 840] := ⟨by decide, by decide⟩
  exact (oidFromStr_encodes (by decide) hmalloc).1 [1, 2, 840] harcs hlimits
    (by decide) (by decide) (by decide) (by decide)

end Nawam
