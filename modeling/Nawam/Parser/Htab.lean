import Mathlib.NumberTheory.LucasPrimality
import Mathlib.Tactic.NormNum.Prime
import Mathlib.Tactic.ReduceModChar
import Nawam.Base.Achieves
import Nawam.Base.Probing

/-!
# The hash table

`htab_create`, `htab_hash` and `htab_destroy` of `stdfn.c`: a table of strings with open
addressing and double hashing, whose indices count from 1. The size is a prime, so the
steps of the second hash come by every entry (`backPath_covers`), and `used` has the first
hash, which is not zero, so that zero says that the entry is free.

An assertion stops the program where assertions are compiled in, as they are in all
builds of the repository, and does nothing otherwise.
-/

namespace Nawam

/-! ## Source -/

structure HtabEntry where
  used : ℕ
  str : Option (List UInt8)
  data : Option ℕ
  deriving DecidableEq

/-- What `calloc` makes of an entry -/
def HtabEntry.free : HtabEntry := ⟨0, none, none⟩

structure HtabTable where
  table : Option (List HtabEntry)
  size : ℕ
  filled : ℕ
  deriving DecidableEq

def HtabTable.empty : HtabTable := ⟨none, 0, 0⟩

/-- `assert(b)`, where assertions are compiled in -/
def assertIf (asserts b : Bool) : C Unit := if asserts then assertThat b else .ok ()

def isprimeLoop (number : ℕ) : (fuel divider : ℕ) → C ℕ
  | 0, _ => .error .outOfFuel
  | fuel + 1, divider => do
      if divider * divider % 2 ^ 32 < number then do
        let r ← modulo number divider
        if r ≠ 0 then isprimeLoop number fuel ((divider + 2) % 2 ^ 32) else .ok divider
      else .ok divider

def isprime (number : ℕ) : C Bool := do
  let divider ← isprimeLoop number (2 ^ 31) 3
  let r ← modulo number divider
  .ok (r ≠ 0)

def nextPrimeLoop : (fuel nel : ℕ) → C ℕ
  | 0, _ => .error .outOfFuel
  | fuel + 1, nel => do
      let prime ← isprime nel
      if prime then .ok nel else nextPrimeLoop fuel ((nel + 2) % 2 ^ 32)

/-- `htab_create`, where `calloc` succeeds or not -/
def htabCreate (asserts allocated : Bool) (nel : ℕ) (htab : HtabTable) : C (Bool × HtabTable) := do
  assertIf asserts htab.table.isNone
  if htab.table.isSome then .ok (false, htab)
  else do
    let size ← nextPrimeLoop (2 ^ 31) (nel ||| 1)
    if allocated then
      .ok (true, ⟨some (List.replicate (size + 1) .free), size, 0⟩)
    else .ok (false, ⟨none, size, 0⟩)

def htabDestroy (htab : HtabTable) : HtabTable :=
  match htab.table with
  | none => htab
  | some _ => .empty

/-- `(uint32_t)(int)c` for a `char c`, which is signed -/
def signExtend (c : UInt8) : UInt32 :=
  if c < 128 then .ofNat c.toNat else .ofNat (2 ^ 32 - 2 ^ 8 + c.toNat)

/-- One turn of the main hash -/
def sdbmStep (r : UInt32) (c : UInt8) : UInt32 := signExtend c + (r <<< 6) + (r <<< 16) - r

/-- `hval` -/
def hashValue (size : ℕ) (str : List UInt8) : ℕ :=
  let r := (str.foldl sdbmStep 0).toNat
  let r := if r = 0 then r + 1 else r
  let hval := r % size
  if hval = 0 then hval + 1 else hval

/-- `safe_strcmp(str, e.str) == 0` -/
def HtabEntry.hasString (e : HtabEntry) (str : List UInt8) : Bool :=
  str = e.str.getD (Ascii.text "<NULL>")

/-- The end of the `do` loop: the entry is found, or the loop is left at `idx`. -/
inductive ProbeEnd where
  | found (idx : ℕ)
  | left (idx : ℕ)
  deriving DecidableEq

/-- The `do` loop -/
def htabProbe (table : List HtabEntry) (size hval hval2 : ℕ) (str : List UInt8) :
    (fuel idx : ℕ) → C ProbeEnd
  | 0, _ => .error .outOfFuel
  | fuel + 1, idx => do
      let idx :=
        if idx ≤ hval2 then ((size + idx) % 2 ^ 32 + 2 ^ 32 - hval2) % 2 ^ 32 else idx - hval2
      if idx = hval then .ok (.left idx)
      else do
        let e ← entry table idx
        if e.used = hval ∧ e.hasString str then .ok (.found idx)
        else if e.used ≠ 0 then htabProbe table size hval hval2 str fuel idx
        else .ok (.left idx)

/-- The part of `htab_hash` that adds an entry at `idx` -/
def htabAdd (asserts allocated : Bool) (str : List UInt8) (hval idx : ℕ)
    (table : List HtabEntry) (htab : HtabTable) : C (ℕ × HtabTable) := do
  assertIf asserts (htab.filled < htab.size)
  if ¬ htab.filled < htab.size then .ok (0, htab)
  else do
    let e ← entry table idx
    if allocated then
      .ok (idx, { htab with
        table := some (table.set idx { e with used := hval, str := some str })
        filled := htab.filled + 1 })
    else
      .ok (0, { htab with table := some (table.set idx { e with used := hval, str := none }) })

/-- `htab_hash`, where `malloc` succeeds or not -/
def htabHash (asserts allocated : Bool) (str : List UInt8) (htab : HtabTable) :
    C (ℕ × HtabTable) :=
  match htab.table with
  | none => .ok (0, htab)
  | some table => do
      let hval := hashValue htab.size str
      let e ← entry table hval
      if e.used ≠ 0 then
        if e.used = hval ∧ e.hasString str then .ok (hval, htab)
        else do
          let r ← modulo hval (htab.size - 2)
          let hval2 := 1 + r
          match ← htabProbe table htab.size hval hval2 str htab.size hval with
          | .found idx => .ok (idx, htab)
          | .left idx => htabAdd asserts allocated str hval idx table htab
      else htabAdd asserts allocated str hval hval table htab

/-- `htab_hash` for one string after the other: the indices, and the table -/
def htabRun (asserts : Bool) : List (List UInt8) → HtabTable → C (List ℕ × HtabTable)
  | [], htab => .ok ([], htab)
  | str :: strs, htab => do
      let (idx, htab) ← htabHash asserts true str htab
      let (idxs, htab) ← htabRun asserts strs htab
      .ok (idx :: idxs, htab)

/-! ## The size -/

/-- What the loop of `isprime` leaves: nothing below the divider divides the number, and
either the divider does or it is past the square root. -/
theorem isprimeLoop_achieves {number : ℕ} (hmax : number ≤ 2147483659) (hodd : number % 2 = 1) :
    ∀ fuel divider : ℕ, divider % 2 = 1 → 3 ≤ divider →
      (divider = 3 ∨ (divider - 2) * (divider - 2) < number) →
      (∀ e, 1 < e → e < divider → ¬ e ∣ number) → 50000 < 2 * fuel + divider →
      Achieves (isprimeLoop number fuel divider) fun d =>
        3 ≤ d ∧ (d = 3 ∨ (d - 2) * (d - 2) < number) ∧ (∀ e, 1 < e → e < d → ¬ e ∣ number) ∧
          (d ∣ number ∨ number ≤ d * d) := by
  intro fuel
  induction fuel with
  | zero =>
      intro divider _ _ hsquare _ hfuel
      rcases hsquare with rfl | hsquare
      · omega
      · have hbig : 46341 * 46341 ≤ (divider - 2) * (divider - 2) :=
          Nat.mul_le_mul (by omega) (by omega)
        omega
  | succ fuel ih =>
      intro divider hdivider hthree hsquare hnone hfuel
      have hbound : divider ≤ 46342 := by
        rcases hsquare with rfl | hsquare
        · omega
        · by_contra hlt
          have hbig : 46341 * 46341 ≤ (divider - 2) * (divider - 2) :=
            Nat.mul_le_mul (by omega) (by omega)
          omega
      have hword : divider * divider % 2 ^ 32 = divider * divider := by
        have hle : divider * divider ≤ 46342 * 46342 := Nat.mul_le_mul hbound hbound
        exact Nat.mod_eq_of_lt (by omega)
      rw [isprimeLoop, hword]
      refine .ite (fun hlt => ?_) (fun hge => ?_)
      · rw [modulo_of_pos (by omega), C.ok_bind]
        refine .ite (fun hr => ?_) (fun hr => ?_)
        · have hnext : (divider + 2) % 2 ^ 32 = divider + 2 := Nat.mod_eq_of_lt (by omega)
          rw [hnext]
          refine ih (divider + 2) (by omega) (by omega) (Or.inr (by rwa [Nat.add_sub_cancel])) ?_
            (by omega)
          intro e hone he hdvd
          rcases Nat.lt_trichotomy e divider with hlt | rfl | hgt
          · exact hnone e hone hlt hdvd
          · exact hr (Nat.mod_eq_zero_of_dvd hdvd)
          · -- an even number does not divide an odd one
            have htwo : 2 ∣ e := by omega
            have := htwo.trans hdvd
            omega
        · refine .ok ⟨hthree, hsquare, hnone, Or.inl ?_⟩
          exact Nat.dvd_of_mod_eq_zero (not_not.mp hr)
      · exact .ok ⟨hthree, hsquare, hnone, Or.inr (by omega)⟩

/-- `isprime` is right for the odd numbers from 5 up to a prime above 2^31. -/
theorem isprime_eq {number : ℕ} (hmax : number ≤ 2147483659) (hodd : number % 2 = 1)
    (hthree : 3 < number) : isprime number = .ok (decide number.Prime) := by
  obtain ⟨d, hd, hd3, hsquare, hnone, hend⟩ := isprimeLoop_achieves hmax hodd (2 ^ 31) 3
    (by decide) (by decide) (Or.inl rfl)
    (fun e hone he hdvd => by
      obtain rfl : e = 2 := by omega
      omega) (by decide)
  rw [isprime, hd, C.ok_bind, modulo_of_pos (by omega), C.ok_bind]
  refine congrArg Except.ok (decide_eq_decide.mpr ⟨fun hr => ?_, fun hprime hr => ?_⟩)
  · have hdvd : ¬ d ∣ number := fun hdvd => hr (Nat.mod_eq_zero_of_dvd hdvd)
    by_contra hprime
    have hfac := Nat.minFac_sq_le_self (by omega) hprime
    have hle : number.minFac ≤ d := by
      by_contra hgt
      have hmul : d * d < number.minFac * number.minFac := Nat.mul_lt_mul'' (by omega) (by omega)
      rw [Nat.pow_two] at hfac
      have := hend.resolve_left hdvd
      omega
    have hone : 1 < number.minFac := (Nat.minFac_prime (by omega)).one_lt
    rcases Nat.lt_or_eq_of_le hle with hlt | heq
    · exact hnone _ hone hlt (Nat.minFac_dvd number)
    · exact hdvd (heq ▸ Nat.minFac_dvd number)
  · have hdvd := Nat.dvd_of_mod_eq_zero hr
    rcases (Nat.dvd_prime hprime).mp hdvd with rfl | rfl
    · omega
    · rcases hsquare with heq | hlt
      · omega
      · have hmul : 3 * (d - 2) ≤ (d - 2) * (d - 2) := Nat.mul_le_mul_right _ (by omega)
        omega

theorem natCast_ne_one_of_lt {p m : ℕ} (hm : m < p) (hp : 1 < p) (h : m ≠ 1) :
    (m : ZMod p) ≠ 1 := by
  intro heq
  have hmod := (ZMod.natCast_eq_natCast_iff' m 1 p).mp (by rw [heq, Nat.cast_one])
  rw [Nat.mod_eq_of_lt hm, Nat.mod_eq_of_lt hp] at hmod
  exact h hmod

/-- There is a prime not far above 2^31. -/
theorem prime_above : Nat.Prime 2147483659 := by
  refine lucas_primality 2147483659 2 (by reduce_mod_char) fun q hq hdvd => ?_
  have hfactors : 2147483659 - 1 = 2 * 3 * 149 * 2402107 := by decide
  have hcases : q = 2 ∨ q = 3 ∨ q = 149 ∨ q = 2402107 := by
    rw [hfactors, hq.dvd_mul, hq.dvd_mul, hq.dvd_mul,
      Nat.prime_dvd_prime_iff_eq hq Nat.prime_two, Nat.prime_dvd_prime_iff_eq hq Nat.prime_three,
      Nat.prime_dvd_prime_iff_eq hq (by norm_num),
      Nat.prime_dvd_prime_iff_eq hq (by norm_num)] at hdvd
    tauto
  rcases hcases with rfl | rfl | rfl | rfl
  · have hpow : (2 : ZMod 2147483659) ^ 1073741829 = (2147483658 : ℕ) := by reduce_mod_char
    exact hpow ▸ natCast_ne_one_of_lt (by decide) (by decide) (by decide)
  · have hpow : (2 : ZMod 2147483659) ^ 715827886 = (2021977949 : ℕ) := by reduce_mod_char
    exact hpow ▸ natCast_ne_one_of_lt (by decide) (by decide) (by decide)
  · have hpow : (2 : ZMod 2147483659) ^ 14412642 = (1547536445 : ℕ) := by reduce_mod_char
    exact hpow ▸ natCast_ne_one_of_lt (by decide) (by decide) (by decide)
  · have hpow : (2 : ZMod 2147483659) ^ 894 = (509190093 : ℕ) := by reduce_mod_char
    exact hpow ▸ natCast_ne_one_of_lt (by decide) (by decide) (by decide)

/-- The loop ends at a prime. 3 is not taken for one. -/
theorem nextPrimeLoop_achieves (fuel nel : ℕ) (hodd : nel % 2 = 1) (hthree : 3 ≤ nel)
    (hmax : nel ≤ 2147483659) (hfuel : 2147483659 < 2 * fuel + nel) :
    Achieves (nextPrimeLoop fuel nel) fun size =>
      size.Prime ∧ nel ≤ size ∧ 5 ≤ size ∧ size ≤ 2147483659 := by
  induction fuel generalizing nel with
  | zero => omega
  | succ fuel ih =>
      have hnext : (nel + 2) % 2 ^ 32 = nel + 2 := Nat.mod_eq_of_lt (by omega)
      rw [nextPrimeLoop, hnext]
      rcases Nat.eq_or_lt_of_le hthree with rfl | hgt
      · have hfalse : isprime 3 = .ok false := by decide
        rw [hfalse, C.ok_bind, if_neg Bool.false_ne_true]
        exact (ih 5 (by decide) (by decide) (by decide) (by omega)).mono
          fun size ⟨hprime, hle, hrest⟩ => ⟨hprime, by omega, hrest⟩
      · rw [isprime_eq hmax hodd hgt, C.ok_bind]
        by_cases hprime : nel.Prime
        · rw [decide_eq_true hprime, if_pos rfl]
          exact .ok ⟨hprime, Nat.le_refl nel, by omega, hmax⟩
        · rw [decide_eq_false hprime, if_neg Bool.false_ne_true]
          have hlt : nel < 2147483659 := by
            rcases Nat.lt_or_eq_of_le hmax with hlt | rfl
            · exact hlt
            · exact absurd prime_above hprime
          exact (ih (nel + 2) (by omega) (by omega) (by omega) (by omega)).mono
            fun size ⟨hsize, hle, hrest⟩ => ⟨hsize, by omega, hrest⟩

theorem or_one (n : ℕ) : n ||| 1 = 2 * (n / 2) + 1 := by
  have hdiv : (n ||| 1) / 2 = n / 2 := by
    rw [Nat.or_div_two]
    exact Nat.or_zero _
  have hmod : (n ||| 1) % 2 = 1 := Nat.or_mod_two_eq_one.mpr (Or.inr rfl)
  omega

/-! ## Entries -/

def probePath (size : ℕ) (str : List UInt8) : ℕ → ℕ :=
  backPath size (1 + hashValue size str % (size - 2)) (hashValue size str)

def stringAt (entries : List HtabEntry) (i : ℕ) : Option (List UInt8) :=
  entries[i]?.bind HtabEntry.str

/-- `htab->table[i].data` -/
def dataAt (entries : List HtabEntry) (i : ℕ) : Option ℕ := entries[i]?.bind HtabEntry.data

theorem stringAt_setData {entries : List HtabEntry} {i : ℕ} {e : HtabEntry}
    (he : entries[i]? = some e) (a : Option ℕ) :
    stringAt (entries.set i { e with data := a }) = stringAt entries := by
  obtain ⟨hi, -⟩ := List.getElem?_eq_some_iff.mp he
  funext j
  by_cases hj : i = j
  · subst hj
    rw [stringAt, stringAt, List.getElem?_set_self hi, he, Option.bind_some, Option.bind_some]
  · rw [stringAt, stringAt, List.getElem?_set_ne hj]

/-- An entry is free, or it has a string and the hash of it. -/
def HtabEntry.Sound (size : ℕ) (e : HtabEntry) : Prop :=
  (e.used = 0 ∧ e.str = none) ∨ ∃ s, e.str = some s ∧ e.used = hashValue size s

/-- The table has the strings `keys`, and its size is one that `htab_create` finds. -/
structure HtabTable.Holds (t : HtabTable) (entries : List HtabEntry) (keys : List (List UInt8)) :
    Prop where
  table_eq : t.table = some entries
  length_eq : entries.length = t.size + 1
  prime : t.size.Prime
  five_le : 5 ≤ t.size
  size_le : t.size ≤ 2147483659
  filled_eq : t.filled = keys.length
  sound : ∀ e ∈ entries, e.Sound t.size
  keeps : Keeps (Finset.Icc 1 t.size) (probePath t.size) (stringAt entries) keys

section

variable {size n : ℕ} {str : List UInt8}

theorem hashValue_mem (h : 2 ≤ size) (str : List UInt8) :
    0 < hashValue size str ∧ hashValue size str < size := by
  obtain ⟨r, hr⟩ : ∃ r, hashValue size str = if r % size = 0 then r % size + 1 else r % size :=
    ⟨_, rfl⟩
  have hlt : r % size < size := Nat.mod_lt r (by omega)
  rw [hr]
  split
  case isTrue => exact ⟨Nat.succ_pos _, by omega⟩
  case isFalse hne => exact ⟨Nat.pos_of_ne_zero hne, hlt⟩

theorem hashValue_mem_Icc (h : 2 ≤ size) (str : List UInt8) :
    hashValue size str ∈ Finset.Icc 1 size := by
  obtain ⟨hpos, hlt⟩ := hashValue_mem h str
  exact Finset.mem_Icc.mpr ⟨hpos, hlt.le⟩

/-- The second hash is a step that is smaller than the size. -/
theorem step_lt (h : 5 ≤ size) (hval : ℕ) : 1 + hval % (size - 2) < size := by
  have hlt : hval % (size - 2) < size - 2 := Nat.mod_lt _ (by omega)
  omega

theorem step_coprime (hprime : size.Prime) (h : 5 ≤ size) (hval : ℕ) :
    Nat.Coprime size (1 + hval % (size - 2)) := by
  have hlt := step_lt h hval
  rw [hprime.coprime_iff_not_dvd]
  intro hdvd
  have hle := Nat.le_of_dvd (by omega) hdvd
  omega

theorem probePath_succ (size : ℕ) (str : List UInt8) (n : ℕ) :
    probePath size str (n + 1) =
      stepBack size (1 + hashValue size str % (size - 2)) (probePath size str n) :=
  backPath_succ ..

theorem probePath_mem (h : 5 ≤ size) (str : List UInt8) (n : ℕ) :
    probePath size str n ∈ Finset.Icc 1 size :=
  backPath_mem (step_lt h _) (hashValue_mem_Icc (by omega) str) n

theorem probePath_covers (hprime : size.Prime) (h : 5 ≤ size) (str : List UInt8) :
    ∀ i ∈ Finset.Icc 1 size, ∃ n < size, probePath size str n = i := by
  intro i hi
  exact backPath_covers (step_lt h _) (step_coprime hprime h _)
    (hashValue_mem_Icc (by omega) str) hi

/-- The path comes back to its first entry behind a round and not before. -/
theorem probePath_eq_start_iff (hprime : size.Prime) (h : 5 ≤ size) (hpos : 0 < n)
    (hn : n ≤ size) : probePath size str n = hashValue size str ↔ n = size := by
  constructor
  · intro heq
    by_contra hne
    have hzero := backPath_inj (m := n) (n := 0) (step_lt h _) (step_coprime hprime h _)
      (by omega) (by omega) heq
    omega
  · rintro rfl
    exact backPath_size (step_lt h _) (hashValue_mem_Icc (by omega) str)

/-- The step of the loop, as a `uint32_t` -/
theorem step_eq {idx step : ℕ} (hsize : size ≤ 2147483659) (hstep : step < size)
    (hidx : idx ∈ Finset.Icc 1 size) :
    (if idx ≤ step then ((size + idx) % 2 ^ 32 + 2 ^ 32 - step) % 2 ^ 32 else idx - step) =
      stepBack size step idx := by
  rw [Finset.mem_Icc] at hidx
  unfold stepBack
  by_cases hle : idx ≤ step
  · rw [if_pos hle, if_pos hle]
    omega
  · rw [if_neg hle, if_neg hle]

end

namespace HtabTable.Holds

variable {t : HtabTable} {entries : List HtabEntry} {keys : List (List UInt8)}
variable {str other : List UInt8} {i n : ℕ}

/-- A string has an index that is not 0. -/
theorem index_mem (h : t.Holds entries keys) (hstring : stringAt entries i = some str) :
    i ∈ Finset.Icc 1 t.size := by
  obtain ⟨n, rfl, -⟩ := h.keeps.placed i str hstring
  exact probePath_mem h.five_le str n

theorem exists_entry (h : t.Holds entries keys) (hi : i ∈ Finset.Icc 1 t.size) :
    ∃ e, entries[i]? = some e ∧ entry entries i = .ok e ∧ e.str = stringAt entries i ∧
      e.Sound t.size := by
  have hlt : i < entries.length := by
    have hle := (Finset.mem_Icc.mp hi).2
    rw [h.length_eq]
    omega
  have hget := List.getElem?_eq_getElem hlt
  refine ⟨entries[i], hget, ?_, ?_, h.sound _ (List.getElem_mem hlt)⟩
  · rw [entry, hget]
  · rw [stringAt, hget, Option.bind_some]

theorem entry_of_none (h : t.Holds entries keys) (hi : i ∈ Finset.Icc 1 t.size)
    (hfree : stringAt entries i = none) : ∃ e, entry entries i = .ok e ∧ e.used = 0 := by
  obtain ⟨e, -, hentry, hstr, hsound⟩ := h.exists_entry hi
  rw [hfree] at hstr
  rcases hsound with ⟨hused, -⟩ | ⟨s, hs, -⟩
  · exact ⟨e, hentry, hused⟩
  · rw [hstr] at hs
    cases hs

theorem entry_of_some (h : t.Holds entries keys) (str : List UInt8) (hi : i ∈ Finset.Icc 1 t.size)
    (hstring : stringAt entries i = some other) : ∃ e, entry entries i = .ok e ∧
      e.used = hashValue t.size other ∧ (e.hasString str = true ↔ str = other) := by
  obtain ⟨e, -, hentry, hstr, hsound⟩ := h.exists_entry hi
  rw [hstring] at hstr
  rcases hsound with ⟨-, hnone⟩ | ⟨s, hs, hused⟩
  · rw [hstr] at hnone
    cases hnone
  · obtain rfl := Option.some_inj.mp (hstr.symm.trans hs)
    refine ⟨e, hentry, hused, ?_⟩
    rw [HtabEntry.hasString, hstr, Option.getD_some, decide_eq_true_iff]

theorem htabProbe_succ (h : t.Holds entries keys) (m : ℕ) (fuel : ℕ) :
    htabProbe entries t.size (hashValue t.size str) (1 + hashValue t.size str % (t.size - 2)) str
        (fuel + 1) (probePath t.size str m) =
      if probePath t.size str (m + 1) = hashValue t.size str then
        .ok (.left (probePath t.size str (m + 1)))
      else (do
        let e ← entry entries (probePath t.size str (m + 1))
        if e.used = hashValue t.size str ∧ e.hasString str then
          .ok (.found (probePath t.size str (m + 1)))
        else if e.used ≠ 0 then
          htabProbe entries t.size (hashValue t.size str)
            (1 + hashValue t.size str % (t.size - 2)) str fuel (probePath t.size str (m + 1))
        else .ok (.left (probePath t.size str (m + 1)))) := by
  have hstep := step_eq h.size_le (step_lt h.five_le (hashValue t.size str))
    (probePath_mem h.five_le str m)
  rw [← probePath_succ] at hstep
  rw [htabProbe]
  simp only [hstep]

/-- The loop goes on over the strings that are in the way. -/
theorem htabProbe_passed (h : t.Holds entries keys) {N : ℕ} (hN : N < t.size)
    (hpassed : Passed (probePath t.size) (stringAt entries) str (N + 1)) :
    ∀ m ≤ N, ∀ fuel, htabProbe entries t.size (hashValue t.size str)
        (1 + hashValue t.size str % (t.size - 2)) str (N - m + fuel) (probePath t.size str m) =
      htabProbe entries t.size (hashValue t.size str)
        (1 + hashValue t.size str % (t.size - 2)) str fuel (probePath t.size str N) := by
  intro m hm fuel
  induction hk : N - m generalizing m with
  | zero =>
      obtain rfl : m = N := by omega
      rw [Nat.zero_add]
  | succ k ih =>
      have hmem := probePath_mem h.five_le str (m + 1)
      obtain ⟨other, hother, hne⟩ := hpassed (m + 1) (by omega)
      obtain ⟨e, hentry, hused, hhas⟩ := h.entry_of_some str hmem hother
      have hpos := (hashValue_mem (le_trans (by decide) h.five_le) other).1
      have hstart : probePath t.size str (m + 1) ≠ hashValue t.size str := by
        rw [ne_eq, probePath_eq_start_iff h.prime h.five_le (by omega) (by omega)]
        omega
      rw [show k + 1 + fuel = k + fuel + 1 by omega, h.htabProbe_succ, if_neg hstart, hentry,
        C.ok_bind, if_neg (fun hfound => hne (hhas.mp hfound.2).symm), if_pos (by omega)]
      exact ih (m + 1) (by omega) (by omega)

/-- The loop ends at the string, or at the first free entry. -/
theorem htabProbe_stop (h : t.Holds entries keys) (hpos : 0 < n) (hn : n < t.size)
    (hpassed : Passed (probePath t.size) (stringAt entries) str n) :
    (stringAt entries (probePath t.size str n) = some str →
      htabProbe entries t.size (hashValue t.size str) (1 + hashValue t.size str % (t.size - 2)) str
        t.size (hashValue t.size str) = .ok (.found (probePath t.size str n))) ∧
    (stringAt entries (probePath t.size str n) = none →
      htabProbe entries t.size (hashValue t.size str) (1 + hashValue t.size str % (t.size - 2)) str
        t.size (hashValue t.size str) = .ok (.left (probePath t.size str n))) := by
  obtain ⟨n, rfl⟩ := Nat.exists_eq_add_one.mpr hpos
  have hround := h.htabProbe_passed (show n < t.size by omega) hpassed 0 (Nat.zero_le n)
    (t.size - n - 1 + 1)
  have hfuel : n - 0 + (t.size - n - 1 + 1) = t.size := by omega
  have hmem := probePath_mem h.five_le str (n + 1)
  have hstart : probePath t.size str (n + 1) ≠ hashValue t.size str := by
    rw [ne_eq, probePath_eq_start_iff h.prime h.five_le (by omega) (by omega)]
    omega
  rw [hfuel, h.htabProbe_succ, if_neg hstart] at hround
  constructor
  · intro hstring
    obtain ⟨e, hentry, hused, hhas⟩ := h.entry_of_some str hmem hstring
    rw [hentry, C.ok_bind, if_pos ⟨hused, hhas.mpr rfl⟩] at hround
    exact hround
  · intro hfree
    obtain ⟨e, hentry, hused⟩ := h.entry_of_none hmem hfree
    have hpos := (hashValue_mem (le_trans (by decide) h.five_le) str).1
    rw [hentry, C.ok_bind, if_neg (fun hfound => by omega), if_neg (fun hne => hne hused)]
      at hround
    exact hround

/-- The loop ends behind a round, where all entries have other strings. -/
theorem htabProbe_full (h : t.Holds entries keys)
    (hpassed : Passed (probePath t.size) (stringAt entries) str t.size) :
    htabProbe entries t.size (hashValue t.size str) (1 + hashValue t.size str % (t.size - 2)) str
      t.size (hashValue t.size str) = .ok (.left (hashValue t.size str)) := by
  have hfive := h.five_le
  have hround := h.htabProbe_passed (N := t.size - 1) (by omega)
    (by rwa [Nat.sub_add_cancel (by omega)]) 0 (Nat.zero_le _) 1
  have hend : probePath t.size str (t.size - 1 + 1) = hashValue t.size str := by
    rw [probePath_eq_start_iff h.prime hfive (by omega) (by omega)]
    omega
  rw [Nat.sub_zero, Nat.sub_add_cancel (by omega), h.htabProbe_succ, if_pos hend, hend] at hround
  exact hround

/-! ## Strings are stored -/

/-- Where the first entry has another string, the loop looks further. -/
theorem htabHash_passed (h : t.Holds entries keys) (asserts allocated : Bool)
    (hpassed : Passed (probePath t.size) (stringAt entries) str 1) :
    htabHash asserts allocated str t = (do
      match ← htabProbe entries t.size (hashValue t.size str)
        (1 + hashValue t.size str % (t.size - 2)) str t.size (hashValue t.size str) with
      | .found idx => .ok (idx, t)
      | .left idx => htabAdd asserts allocated str (hashValue t.size str) idx entries t) := by
  have hfive := h.five_le
  obtain ⟨other, hother, hne⟩ := hpassed 0 (by decide)
  obtain ⟨e, hentry, hused, hhas⟩ :=
    h.entry_of_some str (probePath_mem hfive str 0) hother
  have hpos := (hashValue_mem (le_trans (by decide) hfive) other).1
  have hentry : entry entries (hashValue t.size str) = .ok e := hentry
  rw [htabHash, h.table_eq]
  simp only [hentry, C.ok_bind]
  rw [if_pos (by omega), if_neg (fun hfound => hne (hhas.mp hfound.2).symm),
    modulo_of_pos (by omega), C.ok_bind]

theorem htabHash_found (h : t.Holds entries keys) (asserts allocated : Bool) (hn : n < t.size)
    (hpassed : Passed (probePath t.size) (stringAt entries) str n)
    (hstring : stringAt entries (probePath t.size str n) = some str) :
    htabHash asserts allocated str t = .ok (probePath t.size str n, t) := by
  rcases Nat.eq_zero_or_pos n with rfl | hpos
  · obtain ⟨e, hentry, hused, hhas⟩ :=
      h.entry_of_some str (probePath_mem h.five_le str 0) hstring
    have hpos := (hashValue_mem (le_trans (by decide) h.five_le) str).1
    have hentry : entry entries (hashValue t.size str) = .ok e := hentry
    rw [htabHash, h.table_eq]
    simp only [hentry, C.ok_bind]
    rw [if_pos (by omega), if_pos ⟨hused, hhas.mpr rfl⟩]
    rfl
  · rw [h.htabHash_passed asserts allocated (fun m hm => hpassed m (by omega)),
      (h.htabProbe_stop hpos hn hpassed).1 hstring]
    rfl

theorem htabHash_free (h : t.Holds entries keys) (asserts allocated : Bool) (hn : n < t.size)
    (hpassed : Passed (probePath t.size) (stringAt entries) str n)
    (hfree : stringAt entries (probePath t.size str n) = none) :
    htabHash asserts allocated str t =
      htabAdd asserts allocated str (hashValue t.size str) (probePath t.size str n) entries t := by
  rcases Nat.eq_zero_or_pos n with rfl | hpos
  · obtain ⟨e, hentry, hused⟩ := h.entry_of_none (probePath_mem h.five_le str 0) hfree
    have hentry : entry entries (hashValue t.size str) = .ok e := hentry
    rw [htabHash, h.table_eq]
    simp only [hentry, C.ok_bind]
    rw [if_neg (fun hne => hne hused)]
    rfl
  · rw [h.htabHash_passed asserts allocated (fun m hm => hpassed m (by omega)),
      (h.htabProbe_stop hpos hn hpassed).2 hfree]
    rfl

/-- A string that is there: its index is returned and nothing changes. -/
theorem htabHash_of_mem (h : t.Holds entries keys) (asserts allocated : Bool) (hstr : str ∈ keys) :
    ∃ idx ∈ Finset.Icc 1 t.size, stringAt entries idx = some str ∧
      htabHash asserts allocated str t = .ok (idx, t) := by
  rcases h.keeps.lookup (probePath_mem h.five_le str) (probePath_covers h.prime h.five_le str) with
    ⟨-, n, hn, hpassed, hstring⟩ | ⟨hnot, -⟩ | ⟨hnot, -⟩
  · exact ⟨_, probePath_mem h.five_le str n, hstring,
      h.htabHash_found asserts allocated hn hpassed hstring⟩
  · exact absurd hstr hnot
  · exact absurd hstr hnot

/-- A string more, in an entry that was free -/
theorem set (h : t.Holds entries keys) {e : HtabEntry} (he : entries[i]? = some e)
    (hpath : probePath t.size str n = i)
    (hpassed : Passed (probePath t.size) (stringAt entries) str n)
    (hfree : stringAt entries i = none) :
    Holds ⟨some (entries.set i { e with used := hashValue t.size str, str := some str }), t.size,
        t.filled + 1⟩
      (entries.set i { e with used := hashValue t.size str, str := some str }) (keys ++ [str]) where
  table_eq := rfl
  length_eq := by rw [List.length_set, h.length_eq]
  prime := h.prime
  five_le := h.five_le
  size_le := h.size_le
  filled_eq := by rw [List.length_append, List.length_singleton, h.filled_eq]
  sound := by
    intro e' he'
    rcases List.mem_or_eq_of_mem_set he' with hmem | rfl
    · exact h.sound e' hmem
    · exact Or.inr ⟨str, rfl, rfl⟩
  keeps := by
    obtain ⟨hi, -⟩ := List.getElem?_eq_some_iff.mp he
    have hupdate : stringAt (entries.set i { e with used := hashValue t.size str, str := some str })
        = Function.update (stringAt entries) i (some str) := by
      funext j
      by_cases hj : j = i
      · rw [hj, Function.update_self, stringAt, List.getElem?_set_self hi, Option.bind_some]
      · rw [Function.update_of_ne hj, stringAt, stringAt, List.getElem?_set_ne (Ne.symm hj)]
    rw [hupdate]
    subst hpath
    exact h.keeps.insert hpassed hfree (probePath_mem h.five_le str n)

/-- A new string where there is room: it gets an entry that was free. -/
theorem htabHash_of_room (h : t.Holds entries keys) (asserts : Bool) (hstr : str ∉ keys)
    (hroom : keys.length < t.size) :
    ∃ idx ∈ Finset.Icc 1 t.size, ∃ e, entries[idx]? = some e ∧ stringAt entries idx = none ∧
      htabHash asserts true str t =
        .ok (idx, ⟨some (entries.set idx
          { e with used := hashValue t.size str, str := some str }), t.size, t.filled + 1⟩) ∧
      Holds ⟨some (entries.set idx { e with used := hashValue t.size str, str := some str }),
          t.size, t.filled + 1⟩
        (entries.set idx { e with used := hashValue t.size str, str := some str })
        (keys ++ [str]) := by
  rcases h.keeps.lookup (probePath_mem h.five_le str) (probePath_covers h.prime h.five_le str) with
    ⟨hmem, -⟩ | ⟨-, -, n, hn, hpassed, hfree⟩ | ⟨-, hfull, -⟩
  · exact absurd hmem hstr
  · obtain ⟨e, hget, hentry, -⟩ := h.exists_entry (probePath_mem h.five_le str n)
    refine ⟨_, probePath_mem h.five_le str n, e, hget, hfree, ?_, h.set hget rfl hpassed hfree⟩
    have hlt : t.filled < t.size := by rwa [h.filled_eq]
    rw [h.htabHash_free asserts true hn hpassed hfree, htabAdd, decide_eq_true hlt]
    cases asserts with
    | false => simp only [assertIf, Bool.false_eq_true, if_false, C.ok_bind, hlt, hentry,
        not_true_eq_false, if_true]
    | true => simp only [assertIf, assertThat_true, if_true, C.ok_bind, hlt, hentry,
        not_true_eq_false, if_false]
  · rw [Nat.card_Icc] at hfull
    omega

/-- A new string where the table is full: the assertion fails, or 0 is returned. -/
theorem htabHash_of_full (h : t.Holds entries keys) (asserts allocated : Bool) (hstr : str ∉ keys)
    (hfull : keys.length = t.size) :
    htabHash asserts allocated str t =
      if asserts then .error .assertion else .ok (0, t) := by
  rcases h.keeps.lookup (probePath_mem h.five_le str) (probePath_covers h.prime h.five_le str) with
    ⟨hmem, -⟩ | ⟨-, hroom, -⟩ | ⟨-, -, hpassed⟩
  · exact absurd hmem hstr
  · rw [Nat.card_Icc] at hroom
    omega
  · have hfive := h.five_le
    have hlt : ¬ t.filled < t.size := by
      rw [h.filled_eq, hfull]
      exact Nat.lt_irrefl _
    rw [h.htabHash_passed asserts allocated (fun m hm => hpassed m (by omega)),
      h.htabProbe_full hpassed, C.ok_bind]
    simp only [htabAdd, decide_eq_false hlt]
    cases asserts with
    | false => simp only [assertIf, Bool.false_eq_true, if_false, C.ok_bind, hlt,
        not_false_eq_true, if_true]
    | true => rfl

end HtabTable.Holds

/-! ## A set of strings -/

def addString (size : ℕ) (keys : List (List UInt8)) (str : List UInt8) : List (List UInt8) :=
  if str ∈ keys ∨ size ≤ keys.length then keys else keys ++ [str]

/-- The strings that are stored, which are the first `size` different ones -/
def storedStrings (size : ℕ) (strs : List (List UInt8)) : List (List UInt8) :=
  strs.foldl (addString size) []

/-- The calls for `strs`, on an empty table: each string that is stored has its own index,
which every call for it returns, and a string for which there is no room gets 0, or stops the
program where assertions are compiled in. -/
structure ActsAsSet (asserts : Bool) (t : HtabTable) (strs : List (List UInt8)) : Prop where
  stored_length : (storedStrings t.size strs).length = min t.size strs.toFinset.card
  stored_all : strs.toFinset.card ≤ t.size → ∀ s ∈ strs, s ∈ storedStrings t.size strs
  indices : asserts = false ∨ strs.toFinset.card ≤ t.size →
    ∃ (index : List UInt8 → ℕ) (t' : HtabTable), htabRun asserts strs t =
      .ok (strs.map fun s => if s ∈ storedStrings t.size strs then index s else 0, t') ∧
    (∀ s ∈ storedStrings t.size strs, 1 ≤ index s ∧ index s ≤ t.size) ∧
    (∀ s ∈ storedStrings t.size strs, ∀ s' ∈ storedStrings t.size strs,
      index s = index s' → s = s') ∧
    t'.filled = (storedStrings t.size strs).length
  full : asserts = true → t.size < strs.toFinset.card → htabRun asserts strs t = .error .assertion

section

variable {size : ℕ} {keys strs : List (List UInt8)} {str : List UInt8}

theorem addString_of_mem (h : str ∈ keys) : addString size keys str = keys := if_pos (Or.inl h)

theorem addString_of_full (h : size ≤ keys.length) : addString size keys str = keys :=
  if_pos (Or.inr h)

theorem addString_of_room (h : str ∉ keys) (hroom : keys.length < size) :
    addString size keys str = keys ++ [str] := by
  refine if_neg (not_or.mpr ⟨h, ?_⟩)
  omega

theorem mem_addString (h : str ∈ keys ∨ keys.length < size) : str ∈ addString size keys str := by
  by_cases hmem : str ∈ keys
  · rw [addString_of_mem hmem]
    exact hmem
  · rw [addString_of_room hmem (h.resolve_left hmem)]
    exact List.mem_append_right _ (List.mem_singleton_self str)

theorem foldl_addString_full (strs : List (List UInt8)) (h : size ≤ keys.length) :
    strs.foldl (addString size) keys = keys := by
  induction strs with
  | nil => rfl
  | cons str strs ih => rw [List.foldl_cons, addString_of_full h, ih]

theorem mem_foldl_addString (strs : List (List UInt8)) (h : str ∈ keys) :
    str ∈ strs.foldl (addString size) keys := by
  induction strs generalizing keys with
  | nil => exact h
  | cons s strs ih =>
      rw [List.foldl_cons]
      apply ih
      unfold addString
      split
      · exact h
      · exact List.mem_append_left _ h

/-- The strings that are there in the end: as many different ones as there is room for -/
theorem foldl_addString_length (strs : List (List UInt8)) (hkeys : keys.Nodup)
    (hle : keys.length ≤ size) :
    (strs.foldl (addString size) keys).length =
      min size (keys.toFinset ∪ strs.toFinset).card := by
  induction strs generalizing keys with
  | nil =>
      rw [List.foldl_nil, List.toFinset_nil, Finset.union_empty, List.toFinset_card_of_nodup hkeys]
      omega
  | cons str strs ih =>
      rw [List.foldl_cons, List.toFinset_cons]
      by_cases hmem : str ∈ keys
      · rw [addString_of_mem hmem, ih hkeys hle, Finset.union_insert,
          Finset.insert_eq_of_mem (Finset.mem_union_left _ (List.mem_toFinset.mpr hmem))]
      · rcases Nat.lt_or_eq_of_le hle with hroom | hfull
        · have hnodup : (keys ++ [str]).Nodup :=
            List.Nodup.append hkeys (List.nodup_singleton str) (List.disjoint_singleton.mpr hmem)
          have hlength : (keys ++ [str]).length ≤ size := by
            rw [List.length_append, List.length_singleton]
            omega
          have hunion : (keys ++ [str]).toFinset ∪ strs.toFinset =
              keys.toFinset ∪ insert str strs.toFinset := by
            ext s
            simp only [List.toFinset_append, Finset.mem_union, List.mem_toFinset,
              Finset.mem_insert, List.mem_singleton]
            tauto
          rw [addString_of_room hmem hroom, ih hnodup hlength, hunion]
        · have hcard : keys.toFinset.card ≤ (keys.toFinset ∪ insert str strs.toFinset).card :=
            Finset.card_le_card Finset.subset_union_left
          rw [List.toFinset_card_of_nodup hkeys] at hcard
          rw [addString_of_full hfull.ge, foldl_addString_full strs hfull.ge]
          omega

/-- Where there is room for all strings, all are there in the end. -/
theorem mem_foldl_addString_of_card (hkeys : keys.Nodup)
    (hcard : (keys.toFinset ∪ strs.toFinset).card ≤ size) :
    ∀ s ∈ strs, s ∈ strs.foldl (addString size) keys := by
  induction strs generalizing keys with
  | nil =>
      intro s hs
      cases hs
  | cons str strs ih =>
      rw [List.toFinset_cons, Finset.union_insert] at hcard
      -- the string is there, or there is room for it
      have hadd : (addString size keys str).Nodup ∧ str ∈ addString size keys str ∧
          (addString size keys str).toFinset = insert str keys.toFinset := by
        by_cases hmem : str ∈ keys
        · rw [addString_of_mem hmem, Finset.insert_eq_of_mem (List.mem_toFinset.mpr hmem)]
          exact ⟨hkeys, hmem, rfl⟩
        · have hlt : (insert str keys.toFinset).card ≤ size := by
            refine le_trans (Finset.card_le_card ?_) hcard
            exact Finset.insert_subset_insert _ Finset.subset_union_left
          rw [Finset.card_insert_of_notMem (fun h => hmem (List.mem_toFinset.mp h)),
            List.toFinset_card_of_nodup hkeys] at hlt
          rw [addString_of_room hmem hlt]
          refine ⟨?_, List.mem_append_right _ (List.mem_singleton_self str), ?_⟩
          · exact List.Nodup.append hkeys (List.nodup_singleton str)
              (List.disjoint_singleton.mpr hmem)
          · ext s
            simp only [List.toFinset_append, Finset.mem_union, List.mem_toFinset,
              Finset.mem_insert, List.mem_singleton]
            tauto
      obtain ⟨hnodup, hstr, hset⟩ := hadd
      intro s hs
      rw [List.foldl_cons]
      rcases List.mem_cons.mp hs with rfl | hs
      · exact mem_foldl_addString strs hstr
      · refine ih hnodup ?_ s hs
        rw [hset, Finset.insert_union]
        exact hcard

/-- Where there are more, one is left out. -/
theorem exists_notMem_foldl_addString (hkeys : keys.Nodup) (hle : keys.length ≤ size)
    (hcard : size < strs.toFinset.card) : ∃ s ∈ strs, s ∉ strs.foldl (addString size) keys := by
  by_contra hnot
  have hall : ∀ s ∈ strs, s ∈ strs.foldl (addString size) keys := by
    intro s hs
    by_contra hmem
    exact hnot ⟨s, hs, hmem⟩
  have hsubset : strs.toFinset ⊆ (strs.foldl (addString size) keys).toFinset := by
    intro s hs
    exact List.mem_toFinset.mpr (hall s (List.mem_toFinset.mp hs))
  have hlength := foldl_addString_length strs hkeys hle
  have hsize := (Finset.card_le_card hsubset).trans (List.toFinset_card_le _)
  omega

end

/-! ## Every run -/

namespace HtabTable.Holds

variable {t : HtabTable} {entries : List HtabEntry} {keys : List (List UInt8)}

/-- One call: the string has its index behind it, unless there was no room for it. The data
of the entries is left alone. -/
theorem step (h : t.Holds entries keys) {asserts : Bool} {str : List UInt8}
    (hroom : asserts = false ∨ str ∈ keys ∨ keys.length < t.size) :
    ∃ (idx : ℕ) (t' : HtabTable) (entries' : List HtabEntry),
      htabHash asserts true str t = .ok (idx, t') ∧ t'.size = t.size ∧
      t'.Holds entries' (addString t.size keys str) ∧
      (∀ i s, stringAt entries i = some s → stringAt entries' i = some s) ∧
      (∀ i, dataAt entries' i = dataAt entries i) ∧
      (stringAt entries' idx = some str ∨ (idx = 0 ∧ str ∉ keys ∧ t.size ≤ keys.length)) := by
  by_cases hmem : str ∈ keys
  · obtain ⟨idx, -, hstring, hcall⟩ := h.htabHash_of_mem asserts true hmem
    rw [addString_of_mem hmem]
    exact ⟨idx, t, entries, hcall, rfl, h, fun _ _ hi => hi, fun _ => rfl, Or.inl hstring⟩
  rcases Nat.lt_or_ge keys.length t.size with hlt | hge
  · obtain ⟨idx, -, e, hget, hfree, hcall, hnew⟩ := h.htabHash_of_room asserts hmem hlt
    obtain ⟨hidx, -⟩ := List.getElem?_eq_some_iff.mp hget
    rw [addString_of_room hmem hlt]
    refine ⟨idx, _, _, hcall, rfl, hnew, ?_, ?_, Or.inl ?_⟩
    · intro i s hi
      rw [stringAt, List.getElem?_set_ne]
      · exact hi
      · rintro rfl
        rw [hfree] at hi
        cases hi
    · intro i
      by_cases hi : idx = i
      · subst hi
        rw [dataAt, dataAt, List.getElem?_set_self hidx, hget, Option.bind_some, Option.bind_some]
      · rw [dataAt, dataAt, List.getElem?_set_ne hi]
    · rw [stringAt, List.getElem?_set_self hidx, Option.bind_some]
  · have hle := h.keeps.length_le
    rw [Nat.card_Icc] at hle
    have hcall := h.htabHash_of_full asserts true hmem (by omega)
    obtain rfl : asserts = false := hroom.resolve_right (not_or.mpr ⟨hmem, by omega⟩)
    rw [addString_of_full hge]
    exact ⟨0, t, entries, hcall, rfl, h, fun _ _ hi => hi, fun _ => rfl,
      Or.inr ⟨rfl, hmem, hge⟩⟩

/-- Calls for which there is room, or which no assertion stops -/
theorem run (h : t.Holds entries keys) (asserts : Bool) (strs : List (List UInt8))
    (hroom : asserts = false ∨ ∀ s ∈ strs, s ∈ strs.foldl (addString t.size) keys) :
    ∃ (index : List UInt8 → ℕ) (t' : HtabTable) (entries' : List HtabEntry),
      htabRun asserts strs t =
        .ok (strs.map fun s => if s ∈ strs.foldl (addString t.size) keys then index s else 0, t') ∧
      t'.Holds entries' (strs.foldl (addString t.size) keys) ∧
      (∀ i s, stringAt entries i = some s → stringAt entries' i = some s) ∧
      ∀ s ∈ strs.foldl (addString t.size) keys,
        index s ∈ Finset.Icc 1 t.size ∧ stringAt entries' (index s) = some s := by
  induction strs generalizing t entries keys with
  | nil =>
      have hindex : ∀ s, ∃ i, s ∈ keys → i ∈ Finset.Icc 1 t.size ∧ stringAt entries i = some s := by
        intro s
        by_cases hs : s ∈ keys
        · obtain ⟨i, hi⟩ := (h.keeps.mem_iff s).mp hs
          exact ⟨i, fun _ => hi⟩
        · exact ⟨0, fun hmem => absurd hmem hs⟩
      choose index hindex using hindex
      exact ⟨index, t, entries, rfl, h, fun _ _ hi => hi, hindex⟩
  | cons str strs ih =>
      rw [List.foldl_cons] at hroom
      have hfirst : asserts = false ∨ str ∈ keys ∨ keys.length < t.size := by
        rcases hroom with hno | hall
        · exact Or.inl hno
        · refine Or.inr ?_
          by_contra hfull
          obtain ⟨hnot, hlength⟩ := not_or.mp hfull
          have hin := hall str List.mem_cons_self
          rw [addString_of_full (by omega), foldl_addString_full strs (by omega)] at hin
          exact hnot hin
      obtain ⟨idx, t₁, entries₁, hcall, hsize, hheld, hkept, -, hidx⟩ := h.step hfirst
      obtain ⟨index, t₂, entries₂, hrun, hheld', hkept', hindex⟩ := ih hheld (by
        rw [hsize]
        exact hroom.imp_right fun hall s hs => hall s (List.mem_cons_of_mem str hs))
      rw [hsize] at hrun hheld' hindex
      refine ⟨index, t₂, entries₂, ?_, hheld', fun i s hi => hkept' i s (hkept i s hi), hindex⟩
      -- the index of the first call is the one that the later calls return
      have hhead : idx = if str ∈ strs.foldl (addString t.size) (addString t.size keys str)
          then index str else 0 := by
        rcases hidx with hstring | ⟨rfl, hnot, hlength⟩
        · have hmem : str ∈ strs.foldl (addString t.size) (addString t.size keys str) := by
            by_contra hnot
            refine hnot ((hheld'.keeps.mem_iff str).mpr ⟨idx, ?_, hkept' idx str hstring⟩)
            exact hheld'.index_mem (hkept' idx str hstring)
          rw [if_pos hmem]
          exact hheld'.keeps.placed.unique (hkept' idx str hstring) (hindex str hmem).2
        · rw [if_neg]
          rw [addString_of_full hlength, foldl_addString_full strs hlength]
          exact hnot
      calc htabRun asserts (str :: strs) t
        _ = .ok (idx :: strs.map fun s =>
              if s ∈ strs.foldl (addString t.size) (addString t.size keys str) then index s else 0,
            t₂) := by simp only [htabRun, hcall, C.ok_bind, hrun]
        _ = _ := by
            rw [hhead]
            rfl

/-- A call for which there is no room stops the program. -/
theorem run_full (h : t.Holds entries keys) {strs : List (List UInt8)}
    (hfull : ∃ s ∈ strs, s ∉ strs.foldl (addString t.size) keys) :
    htabRun true strs t = .error .assertion := by
  induction strs generalizing t entries keys with
  | nil =>
      obtain ⟨s, hs, -⟩ := hfull
      cases hs
  | cons str strs ih =>
      rw [List.foldl_cons] at hfull
      rw [htabRun]
      by_cases hroom : str ∈ keys ∨ keys.length < t.size
      · obtain ⟨idx, t₁, entries₁, hcall, hsize, hheld, -⟩ :=
          h.step (show true = false ∨ str ∈ keys ∨ keys.length < t.size from Or.inr hroom)
        have hrest : ∃ s ∈ strs,
            s ∉ strs.foldl (addString t₁.size) (addString t.size keys str) := by
          obtain ⟨s, hs, hnot⟩ := hfull
          rw [hsize]
          refine ⟨s, ?_, hnot⟩
          rcases List.mem_cons.mp hs with rfl | hs
          · exact absurd (mem_foldl_addString strs (mem_addString hroom)) hnot
          · exact hs
        simp only [hcall, C.ok_bind, ih hheld hrest]
        rfl
      · obtain ⟨hnot, hlength⟩ := not_or.mp hroom
        have hle := h.keeps.length_le
        rw [Nat.card_Icc] at hle
        rw [h.htabHash_of_full true true hnot (by omega)]
        rfl

theorem fresh {size : ℕ} (hprime : size.Prime) (h : 5 ≤ size) (hmax : size ≤ 2147483659) :
    Holds ⟨some (List.replicate (size + 1) .free), size, 0⟩
      (List.replicate (size + 1) .free) [] where
  table_eq := rfl
  length_eq := List.length_replicate
  prime := hprime
  five_le := h
  size_le := hmax
  filled_eq := rfl
  sound := by
    intro e he
    rw [List.eq_of_mem_replicate he]
    exact Or.inl ⟨rfl, rfl⟩
  keeps := by
    have hnone : stringAt (List.replicate (size + 1) .free) = fun _ => none := by
      funext i
      rw [stringAt, List.getElem?_replicate]
      split
      · rfl
      · rfl
    rw [hnone]
    exact .empty _ _

/-- The data of an entry may be anything. -/
theorem setData (h : t.Holds entries keys) {i : ℕ} {e : HtabEntry} (he : entries[i]? = some e)
    (a : Option ℕ) :
    Holds { t with table := some (entries.set i { e with data := a }) }
      (entries.set i { e with data := a }) keys where
  table_eq := rfl
  length_eq := by rw [List.length_set, h.length_eq]
  prime := h.prime
  five_le := h.five_le
  size_le := h.size_le
  filled_eq := h.filled_eq
  sound := by
    intro e' he'
    rcases List.mem_or_eq_of_mem_set he' with hmem | rfl
    · exact h.sound e' hmem
    · exact h.sound e (List.mem_of_getElem? he)
  keeps := by
    rw [stringAt_setData he]
    exact h.keeps

theorem actsAsSet (h : t.Holds entries []) (asserts : Bool) (strs : List (List UInt8)) :
    ActsAsSet asserts t strs where
  stored_length := by
    have hlength := foldl_addString_length strs List.nodup_nil (Nat.zero_le t.size)
    rw [List.toFinset_nil, Finset.empty_union] at hlength
    exact hlength
  stored_all hcard := by
    apply mem_foldl_addString_of_card List.nodup_nil
    rw [List.toFinset_nil, Finset.empty_union]
    exact hcard
  indices hcard := by
    obtain ⟨index, t', entries', hrun, hheld, -, hindex⟩ := h.run asserts strs
      (hcard.imp_right fun hcard => by
        apply mem_foldl_addString_of_card List.nodup_nil
        rw [List.toFinset_nil, Finset.empty_union]
        exact hcard)
    refine ⟨index, t', hrun, fun s hs => Finset.mem_Icc.mp (hindex s hs).1, ?_, hheld.filled_eq⟩
    intro s hs s' hs' heq
    have hstring := (hindex s hs).2
    rw [heq, (hindex s' hs').2] at hstring
    exact (Option.some_inj.mp hstring).symm
  full := by
    rintro rfl hcard
    exact h.run_full (exists_notMem_foldl_addString List.nodup_nil (Nat.zero_le _) hcard)

end HtabTable.Holds

/-- `htab_create` makes an empty table of a size that is a prime. -/
theorem htabCreate_eq {nel : ℕ} (htwo : 2 ≤ nel) (hmax : nel ≤ 2 ^ 31) (asserts allocated : Bool)
    {htab : HtabTable} (hnone : htab.table = none) :
    ∃ size, size.Prime ∧ nel ≤ size ∧ 5 ≤ size ∧ size ≤ 2147483659 ∧
      htabCreate asserts allocated nel htab = .ok (if allocated then
          (true, ⟨some (List.replicate (size + 1) .free), size, 0⟩)
        else (false, ⟨none, size, 0⟩)) := by
  have hodd := or_one nel
  obtain ⟨size, hsize, hprime, hle, hfive, hbound⟩ := nextPrimeLoop_achieves (2 ^ 31)
    (nel ||| 1) (by omega) (by omega) (by omega) (by omega)
  have hassert : assertIf asserts true = .ok () := by cases asserts <;> rfl
  refine ⟨size, hprime, by omega, hfive, hbound, ?_⟩
  rw [htabCreate]
  simp only [hnone, Option.isNone_none, Option.isSome_none, hassert, hsize, C.ok_bind,
    Bool.false_eq_true, if_false]
  split
  · rfl
  · rfl

/-- `htab_create` makes a table of a size that is a prime, and it acts as a set of strings
that has room for so many. -/
theorem htabCreate_actsAsSet {nel : ℕ} (htwo : 2 ≤ nel) (hmax : nel ≤ 2 ^ 31) (asserts : Bool) :
    Achieves (htabCreate asserts true nel .empty) fun r =>
      r.1 = true ∧ r.2.size.Prime ∧ nel ≤ r.2.size ∧
        ∀ strs, ActsAsSet asserts r.2 strs := by
  have hempty : HtabTable.empty.table = none := rfl
  obtain ⟨size, hprime, hle, hfive, hbound, hcreate⟩ :=
    htabCreate_eq htwo hmax asserts true hempty
  rw [hcreate, if_pos rfl]
  exact .ok ⟨rfl, hprime, hle, (HtabTable.Holds.fresh hprime hfive hbound).actsAsSet asserts⟩

theorem htabCreate_actsAsSet_two : Achieves (htabCreate true true 2 .empty) fun r =>
    r.1 = true ∧ r.2.size.Prime ∧ 2 ≤ r.2.size ∧ ∀ strs, ActsAsSet true r.2 strs :=
  htabCreate_actsAsSet (by decide) (by decide) true

/-- A sixth string in a table of size 5 does not get 0 where assertions are compiled in, and
the first string gets 0 where there is no memory for it. -/
theorem sixth_string_stops :
    (do
      let (_, t) ← htabCreate true true 2 .empty
      htabRun true (["a", "b", "c", "d", "e", "f"].map Ascii.text) t) = .error .assertion ∧
    (do
      let (_, t) ← htabCreate true true 2 .empty
      htabHash true false (Ascii.text "a") t).map Prod.fst = .ok 0 := by
  decide

end Nawam
