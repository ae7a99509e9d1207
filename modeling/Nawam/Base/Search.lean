import Mathlib.Data.Nat.Find
import Nawam.Base.CString

/-!
# Searching a text

The first place in a text where something begins (`firstHit`), and `strstr` as
the case of another text that begins there. A search that goes on behind what
it has found comes by some of the places only (`Visits`): an occurrence that
overlaps one it has come by is passed over, so all are seen only of a text that
cannot overlap itself (`Visits.of_apart`). `places` is the list of all of them.
-/

namespace Nawam

variable {α : Type}

/-! ## The first place -/

/-- The offset of the first suffix that `hit` holds of. -/
def firstHit (hit : List α → Bool) : List α → Option ℕ
  | [] => if hit [] then some 0 else none
  | c :: s => if hit (c :: s) then some 0 else (firstHit hit s).map (· + 1)

/-- `p` is the first number from `a` on with `P`. -/
structure IsFirst (P : ℕ → Prop) (a p : ℕ) : Prop where
  le : a ≤ p
  holds : P p
  before : ∀ i, a ≤ i → i < p → ¬P i

theorem IsFirst.unique {P : ℕ → Prop} {a p q : ℕ} (hp : IsFirst P a p)
    (hq : IsFirst P a q) : p = q := by
  rcases Nat.lt_trichotomy p q with hlt | heq | hlt
  · exact absurd hp.holds (hq.before p hp.le hlt)
  · exact heq
  · exact absurd hq.holds (hp.before q hq.le hlt)

theorem firstHit_some {hit : List α → Bool} : ∀ {s : List α} {k : ℕ},
    firstHit hit s = some k → IsFirst (fun i => hit (s.drop i) = true) 0 k
  | [], k, h => by
      rw [firstHit] at h
      split at h
      case isTrue hhit =>
          cases h
          exact ⟨le_rfl, hhit, fun i _ hi => absurd hi (Nat.not_lt_zero i)⟩
      case isFalse => cases h
  | c :: s, k, h => by
      rw [firstHit] at h
      split at h
      case isTrue hhit =>
          cases h
          exact ⟨le_rfl, hhit, fun i _ hi => absurd hi (Nat.not_lt_zero i)⟩
      case isFalse hhit =>
          obtain ⟨j, hj, rfl⟩ := Option.map_eq_some_iff.mp h
          have ih := firstHit_some hj
          refine ⟨Nat.zero_le _, ih.holds, fun i _ hi => ?_⟩
          cases i with
          | zero => exact hhit
          | succ i => exact ih.before i (Nat.zero_le i) (Nat.lt_of_succ_lt_succ hi)

theorem firstHit_none {hit : List α → Bool} : ∀ {s : List α},
    firstHit hit s = none → ∀ i, ¬hit (s.drop i) = true
  | [], h, i => by
      rw [firstHit] at h
      split at h
      case isTrue => cases h
      case isFalse hhit => rwa [List.drop_nil]
  | c :: s, h, i => by
      rw [firstHit] at h
      split at h
      case isTrue => cases h
      case isFalse hhit =>
          cases i with
          | zero => exact hhit
          | succ i => exact firstHit_none (Option.map_eq_none_iff.mp h) i

/-- What stands in front of the first place is passed over. -/
theorem firstHit_append {hit : List α → Bool} (rest : List α) : ∀ {front : List α},
    (∀ i < front.length, ¬hit (front.drop i ++ rest) = true) →
    firstHit hit (front ++ rest) = (firstHit hit rest).map (front.length + ·)
  | [], _ => by
      have hid : (fun k => ([] : List α).length + k) = id := funext Nat.zero_add
      rw [List.nil_append, hid, Option.map_id_fun, id_eq]
  | c :: front, h => by
      have ih := firstHit_append rest fun i hi => h (i + 1) (Nat.succ_lt_succ hi)
      have hfirst : ¬hit (c :: (front ++ rest)) = true := h 0 (Nat.succ_pos _)
      rw [List.cons_append, firstHit, if_neg hfirst, ih, Option.map_map]
      congr 1
      funext k
      simp only [Function.comp_apply, List.length_cons]
      omega

theorem firstHit_map {β : Type} (f : α → β) (hit : List β → Bool) : ∀ s : List α,
    firstHit (fun t => hit (t.map f)) s = firstHit hit (s.map f)
  | [] => rfl
  | c :: s => by
      rw [List.map_cons, firstHit, firstHit, firstHit_map f hit s]
      rfl

/-! ## `strstr` -/

/-- One text begins at an offset of another one. -/
def Occurs (needle text : List α) (p : ℕ) : Prop :=
  needle <+: text.drop p

instance [DecidableEq α] (needle text : List α) (p : ℕ) :
    Decidable (Occurs needle text p) := inferInstanceAs (Decidable (_ <+: _))

/-- `strstr(mem + off, needle)`, as an offset. -/
def strstrFrom (needle mem : List UInt8) (off : ℕ) : C (Option ℕ) := do
  let s ← cstrAt mem off
  return (firstHit (needle.isPrefixOf ·) s).map (off + ·)

section

variable {needle text : List α} {p c : ℕ}

theorem Occurs.le_length (hne : needle ≠ []) (h : Occurs needle text p) :
    p + needle.length ≤ text.length := by
  have hle := h.length_le
  have hpos := List.length_pos_iff.mpr hne
  rw [List.length_drop] at hle
  omega

theorem Occurs.split (h : Occurs needle text p) :
    text = text.take p ++ (needle ++ text.drop (p + needle.length)) := by
  obtain ⟨rest, hrest⟩ := h
  have hdrop : text.drop (p + needle.length) = rest := by
    rw [← List.drop_drop, ← hrest, List.drop_left]
  rw [hdrop, hrest, List.take_append_drop]

/-- What begins with an element it has nowhere else cannot overlap itself. -/
theorem Occurs.apart {d : α} {rest : List α} (hd : d ∉ rest) {q : ℕ}
    (hp : Occurs (d :: rest) text p) (hq : Occurs (d :: rest) text q) (hlt : p < q) :
    p + (d :: rest).length ≤ q := by
  by_contra hlap
  obtain ⟨j, rfl⟩ : ∃ j, q = p + (j + 1) := ⟨q - p - 1, by omega⟩
  have hj : j < rest.length := by
    rw [List.length_cons] at hlap
    omega
  obtain ⟨t, ht⟩ := hp
  obtain ⟨t', ht'⟩ := hq
  have hdrop : d :: (rest ++ t') = rest.drop j ++ t := by
    rw [← List.cons_append, ht', ← List.drop_drop, ← ht, List.cons_append,
      List.drop_succ_cons, List.drop_append_of_le_length hj.le]
  rw [List.drop_eq_getElem_cons hj, List.cons_append, List.cons.injEq] at hdrop
  exact hd (hdrop.1 ▸ List.getElem_mem hj)

/-- The occurrences in a text that is cut off are those that end before. -/
theorem occurs_take_iff (hne : needle ≠ []) :
    Occurs needle (text.take c) p ↔ Occurs needle text p ∧ p + needle.length ≤ c := by
  have hpos := List.length_pos_iff.mpr hne
  unfold Occurs
  rw [List.drop_take]
  constructor
  · intro h
    have hle := h.length_le
    rw [List.length_take] at hle
    exact ⟨h.trans (List.take_prefix ..), by omega⟩
  · rintro ⟨h, hle⟩
    exact List.prefix_take_iff.mpr ⟨h, by omega⟩

end

/-- What begins in front of `tail` and has not its first element ends there. -/
theorem prefix_of_prefix_append {n a tail : List α}
    (htail : ∀ c ∈ tail.head?, c ∉ n) (h : n <+: a ++ tail) : n <+: a := by
  obtain ⟨t, ht⟩ := h
  rcases List.append_eq_append_iff.mp ht with ⟨a', rfl, -⟩ | ⟨c, rfl, rfl⟩
  · exact List.prefix_append n a'
  · cases c with
    | nil => simp
    | cons c cs => exact absurd (by simp) (htail c rfl)

theorem cstrAt_text {text : List UInt8} (hnul : Ascii.nul ∉ text) (behind : List UInt8)
    {off : ℕ} (hoff : off ≤ text.length) :
    cstrAt (text ++ Ascii.nul :: behind) off = .ok (text.drop off) := by
  have hdrop : Ascii.nul ∉ text.drop off := fun h => hnul (List.mem_of_mem_drop h)
  have hsplit := @cstrAt_append (text.take off) _ behind hdrop
  rwa [List.length_take_of_le hoff, ← List.append_assoc, List.take_append_drop]
    at hsplit

/-- The first place of a text in what is behind an offset -/
theorem firstHit_occurs [DecidableEq α] (needle text : List α) (off : ℕ) :
    (∃ p, (firstHit (needle.isPrefixOf ·) (text.drop off)).map (off + ·) = some p ∧
      IsFirst (Occurs needle text) off p) ∨
    (firstHit (needle.isPrefixOf ·) (text.drop off)).map (off + ·) = none ∧
      ∀ i, off ≤ i → ¬Occurs needle text i := by
  have hiff (i : ℕ) : needle.isPrefixOf ((text.drop off).drop i) = true ↔
      Occurs needle text (off + i) := by
    rw [List.isPrefixOf_iff_prefix, List.drop_drop, Occurs]
  cases hhit : firstHit (needle.isPrefixOf ·) (text.drop off) with
  | none =>
      refine .inr ⟨rfl, fun i hi hocc => firstHit_none hhit (i - off) ?_⟩
      rwa [hiff, Nat.add_sub_cancel' hi]
  | some k =>
      have hfirst := firstHit_some hhit
      refine .inl ⟨off + k, rfl, Nat.le_add_right off k, (hiff k).mp hfirst.holds, ?_⟩
      intro i hi hlt hocc
      refine hfirst.before (i - off) (Nat.zero_le _) (by omega) ?_
      rwa [hiff, Nat.add_sub_cancel' hi]

theorem strstrFrom_text {needle text : List UInt8} (hnul : Ascii.nul ∉ text)
    (behind : List UInt8) {off : ℕ} (hoff : off ≤ text.length) :
    (∃ p, strstrFrom needle (text ++ Ascii.nul :: behind) off = .ok (some p) ∧
      IsFirst (Occurs needle text) off p) ∨
    strstrFrom needle (text ++ Ascii.nul :: behind) off = .ok none ∧
      ∀ i, off ≤ i → ¬Occurs needle text i := by
  have hrun : strstrFrom needle (text ++ Ascii.nul :: behind) off
      = .ok ((firstHit (needle.isPrefixOf ·) (text.drop off)).map (off + ·)) := by
    rw [strstrFrom, cstrAt_text hnul behind hoff]
    rfl
  rw [hrun]
  simpa only [Except.ok.injEq] using firstHit_occurs needle text off

/-! ## The places that a search comes by -/

/-- Where a search from `a` on comes by that goes on `n` places behind each
place with `P`. -/
inductive Visits (P : ℕ → Prop) (n : ℕ) : ℕ → ℕ → Prop where
  | here {a p : ℕ} : IsFirst P a p → Visits P n a p
  | later {a q p : ℕ} : IsFirst P a q → Visits P n (q + n) p → Visits P n a p

namespace Visits

variable {P : ℕ → Prop} {n a p c : ℕ}

theorem holds (h : Visits P n a p) : P p := by
  induction h with
  | here hfirst => exact hfirst.holds
  | later _ _ ih => exact ih

theorem le (h : Visits P n a p) : a ≤ p := by
  induction h with
  | here hfirst => exact hfirst.le
  | later hfirst _ ih => exact hfirst.le.trans ((Nat.le_add_right _ n).trans ih)

theorem not_of_none (hnone : ∀ i, a ≤ i → ¬P i) : ¬Visits P n a p :=
  fun h => hnone p h.le h.holds

theorem eq_or_later {q : ℕ} (hq : IsFirst P a q) (h : Visits P n a p) :
    p = q ∨ Visits P n (q + n) p := by
  cases h with
  | here hp => exact .inl (hp.unique hq)
  | later hq' hp => exact .inr (hq.unique hq' ▸ hp)

theorem apart {q : ℕ} (hp : Visits P n a p) (hq : Visits P n a q) (hlt : p < q) :
    p + n ≤ q := by
  induction hp with
  | here hfirst =>
      rcases hq.eq_or_later hfirst with rfl | hq
      · exact absurd hlt (lt_irrefl _)
      · exact hq.le
  | later hfirst hp ih =>
      have hle := hp.le
      rcases hq.eq_or_later hfirst with rfl | hq
      · omega
      · exact ih hq hlt

/-- The places that end before `c` are what a search comes by that sees those
only. -/
theorem restrict_iff :
    Visits (fun i => P i ∧ i + n ≤ c) n a p ↔ Visits P n a p ∧ p + n ≤ c := by
  have hfirst {a p : ℕ} (hp : p + n ≤ c) :
      IsFirst (fun i => P i ∧ i + n ≤ c) a p ↔ IsFirst P a p := by
    constructor
    · rintro ⟨hle, hP, hbefore⟩
      exact ⟨hle, hP.1, fun i hi hlt hPi => hbefore i hi hlt ⟨hPi, by omega⟩⟩
    · rintro ⟨hle, hP, hbefore⟩
      exact ⟨hle, ⟨hP, hp⟩, fun i hi hlt hPi => hbefore i hi hlt hPi.1⟩
  constructor
  · intro h
    have hp := h.holds.2
    refine ⟨?_, hp⟩
    induction h with
    | here h => exact .here ((hfirst hp).mp h)
    | later h _ ih => exact .later ((hfirst h.holds.2).mp h) (ih hp)
  · rintro ⟨h, hp⟩
    induction h with
    | here h => exact .here ((hfirst hp).mpr h)
    | later h hlater ih =>
        have hle := hlater.le
        exact .later ((hfirst (by omega)).mpr h) (ih hp)

/-- Where no two places overlap, the search comes by all of them. -/
theorem of_apart (hapart : ∀ p q, P p → P q → p < q → p + n ≤ q) (hn : 0 < n)
    (hp : P p) (hle : a ≤ p) : Visits P n a p := by
  classical
  induction hk : p - a using Nat.strongRecOn generalizing a with
  | ind k ih =>
      have hex : ∃ i, a ≤ i ∧ P i := ⟨p, hle, hp⟩
      have hspec := Nat.find_spec hex
      have hfirst : IsFirst P a (Nat.find hex) :=
        ⟨hspec.1, hspec.2, fun i hi hlt hPi => Nat.find_min hex hlt ⟨hi, hPi⟩⟩
      have hmin : Nat.find hex ≤ p := Nat.find_min' hex ⟨hle, hp⟩
      rcases Nat.eq_or_lt_of_le hmin with heq | hlt
      · exact heq ▸ .here hfirst
      · have hbehind := hapart _ _ hspec.2 hp hlt
        exact .later hfirst (ih _ (by omega) hbehind rfl)

end Visits

/-! ## All places -/

/-- The numbers from `a` to `b` with `P` -/
def places (P : ℕ → Prop) [DecidablePred P] (a b : ℕ) : List ℕ :=
  (List.range' a (b - a)).filter fun p => P p

section

variable {P : ℕ → Prop} [DecidablePred P] {a b m p : ℕ}

theorem mem_places : p ∈ places P a b ↔ (a ≤ p ∧ p < b) ∧ P p := by
  rw [places, List.mem_filter, List.mem_range'_1, decide_eq_true_eq]
  exact and_congr_left fun _ => and_congr_right fun _ => by omega

theorem places_append (ham : a ≤ m) (hmb : m ≤ b) :
    places P a b = places P a m ++ places P m b := by
  have hlen : b - a = (m - a) + (b - m) := by omega
  have hrange : List.range' a (b - a) = List.range' a (m - a) ++ List.range' m (b - m) := by
    rw [hlen, ← List.range'_append_1, Nat.add_sub_cancel' ham]
  rw [places, hrange, List.filter_append]
  rfl

theorem places_eq_nil (h : ∀ i, a ≤ i → i < b → ¬P i) : places P a b = [] :=
  List.eq_nil_iff_forall_not_mem.mpr fun i hi =>
    h i (mem_places.mp hi).1.1 (mem_places.mp hi).1.2 (mem_places.mp hi).2

theorem places_skip (h : ∀ i, a ≤ i → i < m → ¬P i) (ham : a ≤ m) (hmb : m ≤ b) :
    places P a b = places P m b := by
  rw [places_append ham hmb, places_eq_nil h, List.nil_append]

theorem places_first {n : ℕ} (hfirst : IsFirst P a p) (hn : 0 < n)
    (hapart : ∀ i, p < i → i < p + n → ¬P i) (hb : p + n ≤ b) :
    places P a b = p :: places P (p + n) b := by
  have hle := hfirst.le
  have hone : places P p (p + 1) = [p] := by
    simp [places, hfirst.holds]
  rw [places_skip hfirst.before hfirst.le (by omega),
    places_append (Nat.le_succ p) (show p + 1 ≤ b by omega), hone,
    places_skip (fun i hi => hapart i (by omega)) (show p + 1 ≤ p + n by omega) hb]
  rfl

end

/-- The last place, where there are finitely many. -/
theorem exists_last {P : ℕ → Prop} {N a : ℕ} (hbound : ∀ i, P i → i ≤ N)
    (ha : P a) : ∃ m, a ≤ m ∧ P m ∧ ∀ i, m < i → ¬P i := by
  classical
  have hle : a ≤ N := hbound a ha
  refine ⟨Nat.findGreatest P N, Nat.le_findGreatest hle ha,
    Nat.findGreatest_spec hle ha, fun i hi hPi => ?_⟩
  exact absurd (Nat.le_findGreatest (hbound i hPi) hPi) (by omega)

end Nawam
