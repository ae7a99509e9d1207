import Mathlib.Data.Finset.Card
import Mathlib.Data.Nat.ModEq
import Mathlib.Order.Interval.Finset.Nat

/-!
# Open addressing

A table of places, each of them free or taken by a key, and for every key the path of the
places where it is looked for. A key is put into the first free place of its path, and
nothing is taken out again. So each key is reached over places that other keys have taken
(`Placed`), and looking for it ends at its place, or at a free one, or has seen the table
full (`Keeps.lookup`).

The first part is about one kind of path: back around a circle in equal steps. It comes
by every place when the step and the size have no common factor.
-/

namespace Nawam

/-! ## Around a circle -/

/-- `step` places back on a circle of `size` places, which are counted from 1 -/
def stepBack (size step i : ℕ) : ℕ := if i ≤ step then size + i - step else i - step

/-- The place after `n` steps back -/
def backPath (size step start n : ℕ) : ℕ := (stepBack size step)^[n] start

section

variable {size step start i m n : ℕ}

theorem stepBack_mem (hstep : step < size) (hi : i ∈ Finset.Icc 1 size) :
    stepBack size step i ∈ Finset.Icc 1 size := by
  rw [Finset.mem_Icc] at hi ⊢
  unfold stepBack
  split
  · omega
  · omega

theorem stepBack_modEq (hstep : step < size) : stepBack size step i + step ≡ i [MOD size] := by
  unfold stepBack
  split
  case isTrue hle =>
      rw [Nat.sub_add_cancel (by omega)]
      exact Nat.add_modEq_left
  case isFalse hgt => rw [Nat.sub_add_cancel (by omega)]

theorem backPath_succ (size step start n : ℕ) :
    backPath size step start (n + 1) = stepBack size step (backPath size step start n) :=
  Function.iterate_succ_apply' ..

theorem backPath_mem (hstep : step < size) (hstart : start ∈ Finset.Icc 1 size) (n : ℕ) :
    backPath size step start n ∈ Finset.Icc 1 size := by
  induction n with
  | zero => exact hstart
  | succ n ih =>
      rw [backPath_succ]
      exact stepBack_mem hstep ih

theorem backPath_modEq (start : ℕ) (hstep : step < size) (n : ℕ) :
    backPath size step start n + n * step ≡ start [MOD size] := by
  induction n with
  | zero => rw [Nat.zero_mul]; rfl
  | succ n ih =>
      have hstepped := (stepBack_modEq (i := backPath size step start n) hstep).add_right (n * step)
      rw [backPath_succ, Nat.succ_mul, Nat.add_comm (n * step), ← Nat.add_assoc]
      exact hstepped.trans ih

/-- No place comes up twice in one round. -/
theorem backPath_inj (hstep : step < size) (hcoprime : Nat.Coprime size step) (hm : m < size)
    (hn : n < size) (h : backPath size step start m = backPath size step start n) : m = n := by
  have hsame : m * step ≡ n * step [MOD size] := by
    have hboth := (backPath_modEq start hstep m).trans (backPath_modEq start hstep n).symm
    rw [h] at hboth
    exact Nat.ModEq.add_left_cancel' _ hboth
  exact (Nat.ModEq.cancel_right_of_coprime hcoprime hsame).eq_of_lt_of_lt hm hn

theorem backPath_covers (hstep : step < size) (hcoprime : Nat.Coprime size step)
    (hstart : start ∈ Finset.Icc 1 size) (hi : i ∈ Finset.Icc 1 size) :
    ∃ n < size, backPath size step start n = i := by
  have hsubset : (Finset.range size).image (backPath size step start) ⊆ Finset.Icc 1 size := by
    intro j hj
    obtain ⟨n, -, rfl⟩ := Finset.mem_image.mp hj
    exact backPath_mem hstep hstart n
  have hcard : ((Finset.range size).image (backPath size step start)).card = size := by
    rw [Finset.card_image_of_injOn, Finset.card_range]
    intro m hm n hn h
    exact backPath_inj hstep hcoprime (Finset.mem_range.mp hm) (Finset.mem_range.mp hn) h
  have hall := Finset.eq_of_subset_of_card_le hsubset (by rw [hcard, Nat.card_Icc]; omega)
  rw [← hall] at hi
  obtain ⟨n, hn, hpath⟩ := Finset.mem_image.mp hi
  exact ⟨n, Finset.mem_range.mp hn, hpath⟩

theorem backPath_size (hstep : step < size) (hstart : start ∈ Finset.Icc 1 size) :
    backPath size step start size = start := by
  have hmem := backPath_mem hstep hstart size
  have hmod : backPath size step start size ≡ start [MOD size] := by
    have hround := backPath_modEq start hstep size
    rw [Nat.ModEq, Nat.add_mul_mod_self_left] at hround
    exact hround
  rw [Finset.mem_Icc] at hmem hstart
  rcases Nat.lt_or_ge (backPath size step start size) start with hlt | hge
  · have hdvd := (Nat.modEq_iff_dvd' hlt.le).mp hmod
    have hle := Nat.le_of_dvd (by omega) hdvd
    omega
  · have hdvd := (Nat.modEq_iff_dvd' hge).mp hmod.symm
    rcases Nat.eq_zero_or_pos (backPath size step start size - start) with hzero | hpos
    · omega
    · have hle := Nat.le_of_dvd hpos hdvd
      omega

end

/-! ## Keys in their places -/

section

variable {K ι : Type} {path : K → ℕ → ι} {slots : ι → Option K} {k : K} {i j : ι} {n N : ℕ}

/-- Other keys have taken the first `n` places of the path of `k`. -/
def Passed (path : K → ℕ → ι) (slots : ι → Option K) (k : K) (n : ℕ) : Prop :=
  ∀ m < n, ∃ k', slots (path k m) = some k' ∧ k' ≠ k

/-- Each key is in its path, behind places that other keys have taken. -/
def Placed (path : K → ℕ → ι) (slots : ι → Option K) : Prop :=
  ∀ i k, slots i = some k → ∃ n, path k n = i ∧ Passed path slots k n

theorem Placed.empty (path : K → ℕ → ι) : Placed path fun _ => none := fun _ _ h => nomatch h

theorem Passed.not_some (h : Passed path slots k n) {m : ℕ} (hm : m < n) :
    slots (path k m) ≠ some k := by
  intro heq
  obtain ⟨k', hk', hne⟩ := h m hm
  exact hne (Option.some_inj.mp (hk'.symm.trans heq))

theorem Passed.not_none (h : Passed path slots k n) {m : ℕ} (hm : m < n) :
    slots (path k m) ≠ none := by
  intro hnone
  obtain ⟨k', hk', -⟩ := h m hm
  rw [hnone] at hk'
  cases hk'

theorem Placed.unique (h : Placed path slots) (hi : slots i = some k) (hj : slots j = some k) :
    i = j := by
  obtain ⟨m, rfl, hm⟩ := h i k hi
  obtain ⟨n, rfl, hn⟩ := h j k hj
  rcases Nat.lt_trichotomy m n with hlt | rfl | hgt
  · exact absurd hi (hn.not_some hlt)
  · rfl
  · exact absurd hj (hm.not_some hgt)

/-- A key that leads to a free place is not in the table. -/
theorem Placed.absent (h : Placed path slots) (hpassed : Passed path slots k n)
    (hfree : slots (path k n) = none) (i : ι) : slots i ≠ some k := by
  intro hi
  obtain ⟨m, rfl, hm⟩ := h i k hi
  rcases Nat.lt_trichotomy m n with hlt | rfl | hgt
  · exact hpassed.not_some hlt hi
  · rw [hfree] at hi
    cases hi
  · exact hm.not_none hgt hfree

/-- The key takes the first free place of its path. -/
theorem Placed.insert [DecidableEq ι] (h : Placed path slots) (hpassed : Passed path slots k n)
    (hfree : slots (path k n) = none) :
    Placed path (Function.update slots (path k n) (some k)) := by
  -- places that were taken are taken by the same keys
  have hkept {l : K} {m : ℕ} (hm : Passed path slots l m) :
      Passed path (Function.update slots (path k n) (some k)) l m := by
    intro q hq
    obtain ⟨k', hk', hne⟩ := hm q hq
    refine ⟨k', ?_, hne⟩
    rw [Function.update_of_ne, hk']
    intro heq
    rw [heq, hfree] at hk'
    cases hk'
  intro i l hl
  by_cases hi : i = path k n
  · rw [hi, Function.update_self] at hl
    obtain rfl := Option.some_inj.mp hl
    exact ⟨n, hi.symm, hkept hpassed⟩
  · rw [Function.update_of_ne hi] at hl
    obtain ⟨m, hm, hpassed'⟩ := h i l hl
    exact ⟨m, hm, hkept hpassed'⟩

/-- The first place of the path that is free or has the key, if there is one -/
theorem exists_stop_or_passed (path : K → ℕ → ι) (slots : ι → Option K) (k : K) (N : ℕ) :
    (∃ n < N, Passed path slots k n ∧ (slots (path k n) = none ∨ slots (path k n) = some k)) ∨
      Passed path slots k N := by
  induction N with
  | zero => exact Or.inr fun m hm => absurd hm (Nat.not_lt_zero m)
  | succ N ih =>
      rcases ih with ⟨n, hn, hstop⟩ | hpassed
      · exact Or.inl ⟨n, Nat.lt_succ_of_lt hn, hstop⟩
      · by_cases hstop : slots (path k N) = none ∨ slots (path k N) = some k
        · exact Or.inl ⟨N, Nat.lt_succ_self N, hpassed, hstop⟩
        · obtain ⟨hnone, hsome⟩ := not_or.mp hstop
          refine Or.inr fun m hm => ?_
          rcases Nat.lt_succ_iff_lt_or_eq.mp hm with hlt | rfl
          · exact hpassed m hlt
          · obtain ⟨k', hk'⟩ := Option.ne_none_iff_exists'.mp hnone
            exact ⟨k', hk', fun heq => hsome (heq ▸ hk')⟩

/-- The places `S` of the table have the keys, each one once. -/
structure Keeps (S : Finset ι) (path : K → ℕ → ι) (slots : ι → Option K) (keys : List K) :
    Prop where
  placed : Placed path slots
  nodup : keys.Nodup
  mem_iff : ∀ k, k ∈ keys ↔ ∃ i ∈ S, slots i = some k

namespace Keeps

variable {S : Finset ι} {keys : List K}

theorem empty (S : Finset ι) (path : K → ℕ → ι) : Keeps S path (fun _ => none) [] where
  placed := .empty path
  nodup := List.nodup_nil
  mem_iff k := by
    constructor
    · intro hk
      cases hk
    · rintro ⟨_, _, h⟩
      cases h

theorem insert [DecidableEq ι] (h : Keeps S path slots keys) (hpassed : Passed path slots k n)
    (hfree : slots (path k n) = none) (hmem : path k n ∈ S) :
    Keeps S path (Function.update slots (path k n) (some k)) (keys ++ [k]) where
  placed := h.placed.insert hpassed hfree
  nodup := by
    refine List.Nodup.append h.nodup (List.nodup_singleton k) (List.disjoint_singleton.mpr ?_)
    intro hk
    obtain ⟨i, -, hi⟩ := (h.mem_iff k).mp hk
    exact h.placed.absent hpassed hfree i hi
  mem_iff l := by
    rw [List.mem_append, List.mem_singleton, h.mem_iff]
    constructor
    · rintro (⟨i, hi, hl⟩ | rfl)
      · refine ⟨i, hi, ?_⟩
        rw [Function.update_of_ne, hl]
        rintro rfl
        rw [hfree] at hl
        cases hl
      · exact ⟨path l n, hmem, Function.update_self ..⟩
    · rintro ⟨i, hi, hl⟩
      by_cases heq : i = path k n
      · rw [heq, Function.update_self] at hl
        exact Or.inr (Option.some_inj.mp hl).symm
      · rw [Function.update_of_ne heq] at hl
        exact Or.inl ⟨i, hi, hl⟩

/-- There are as many keys as places are taken. -/
theorem card_taken (h : Keeps S path slots keys) :
    (S.filter fun i => slots i ≠ none).card = keys.length := by
  classical
  have himage : (S.filter fun i => slots i ≠ none).image slots = keys.toFinset.image some := by
    ext o
    simp only [Finset.mem_image, Finset.mem_filter, List.mem_toFinset, h.mem_iff]
    constructor
    · rintro ⟨i, ⟨hi, hne⟩, rfl⟩
      obtain ⟨k, hk⟩ := Option.ne_none_iff_exists'.mp hne
      exact ⟨k, ⟨i, hi, hk⟩, hk.symm⟩
    · rintro ⟨k, ⟨i, hi, hk⟩, rfl⟩
      refine ⟨i, ⟨hi, ?_⟩, hk⟩
      rw [hk]
      exact Option.some_ne_none k
  have hinj : Set.InjOn slots (S.filter fun i => slots i ≠ none) := by
    intro i hi j hj hij
    obtain ⟨k, hk⟩ := Option.ne_none_iff_exists'.mp (Finset.mem_filter.mp hi).2
    exact h.placed.unique hk (hij ▸ hk)
  rw [← Finset.card_image_of_injOn hinj, himage,
    Finset.card_image_of_injective _ (Option.some_injective K), List.toFinset_card_of_nodup h.nodup]

theorem length_le (h : Keeps S path slots keys) : keys.length ≤ S.card := by
  rw [← h.card_taken]
  exact Finset.card_filter_le ..

theorem length_lt (h : Keeps S path slots keys) (hi : i ∈ S) (hfree : slots i = none) :
    keys.length < S.card := by
  rw [← h.card_taken]
  apply Finset.card_lt_card
  refine (Finset.filter_ssubset).mpr ⟨i, hi, ?_⟩
  rw [hfree]
  exact fun hne => hne rfl

/-- Looking for a key along a path that comes by all of the places: it is found; or it is
not there, and there is a place for it; or all of the places have other keys. -/
theorem lookup (h : Keeps S path slots keys) (hmem : ∀ n, path k n ∈ S)
    (hcovers : ∀ i ∈ S, ∃ n < N, path k n = i) :
    (k ∈ keys ∧ ∃ n < N, Passed path slots k n ∧ slots (path k n) = some k) ∨
    (k ∉ keys ∧ keys.length < S.card ∧
      ∃ n < N, Passed path slots k n ∧ slots (path k n) = none) ∨
    (k ∉ keys ∧ keys.length = S.card ∧ Passed path slots k N) := by
  rcases exists_stop_or_passed path slots k N with ⟨n, hn, hpassed, hfree | hfound⟩ | hpassed
  · refine Or.inr (Or.inl ⟨?_, h.length_lt (hmem n) hfree, n, hn, hpassed, hfree⟩)
    intro hk
    obtain ⟨i, -, hi⟩ := (h.mem_iff k).mp hk
    exact h.placed.absent hpassed hfree i hi
  · exact Or.inl ⟨(h.mem_iff k).mpr ⟨_, hmem n, hfound⟩, n, hn, hpassed, hfound⟩
  · refine Or.inr (Or.inr ⟨?_, ?_, hpassed⟩)
    · intro hk
      obtain ⟨i, hi, hfound⟩ := (h.mem_iff k).mp hk
      obtain ⟨n, hn, rfl⟩ := hcovers i hi
      exact hpassed.not_some hn hfound
    · have hall : (S.filter fun i => slots i ≠ none) = S := by
        apply Finset.filter_true_of_mem
        intro i hi
        obtain ⟨n, hn, rfl⟩ := hcovers i hi
        exact hpassed.not_none hn
      rw [← h.card_taken, hall]

end Keeps

end

end Nawam
