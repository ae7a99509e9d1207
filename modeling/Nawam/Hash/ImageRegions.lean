import Nawam.Base.Insertion
import Nawam.Hash.Pe256

/-!
# The list of the regions

`efi_image_region_add` of `hash.c` on its array: a region goes in front of the first one that
it precedes, where the regions behind have made room, and is refused where it overlaps one
before that. On the part of the array that is in use that is `efiImageRegionAdd`
(`EfiImageRegions.add_eq`), and a list in which each region ends where the next one starts or
before stays one (`EfiImageRegions.add_wellFormed`).
-/

namespace Nawam

open Extent

/-! ## Source -/

/-- `struct efi_image_regions`. There is room for `max` regions, and `num` of them are in use. -/
structure EfiImageRegions where
  max : ℕ
  num : ℕ
  reg : List ImageRegion

/-- The loop, `left` turns before its end: where the region goes, and the array with room for
it; none where it overlaps another region. -/
def regionLoop (start stop : ℕ) (nocheck : Bool) (reg : List ImageRegion) :
    (left i : ℕ) → C (Option (ℕ × List ImageRegion))
  | 0, i => .ok (some (i, reg))
  | left + 1, i =>
      if nocheck then regionLoop start stop nocheck reg left (i + 1)
      else do
        let r ← entry reg i
        -- new data after registered region
        if r.stop ≤ start then regionLoop start stop nocheck reg left (i + 1)
        -- new data preceding registered region
        else if stop ≤ r.1 then do
          let reg ← shiftUp i (left + 1) reg
          .ok (some (i, reg))
        else .ok none

def EfiImageRegions.add (regs : EfiImageRegions) (start stop : ℕ) (nocheck : Bool) :
    C (EfiImageRegions × Bool) :=
  if regs.max ≤ regs.num then .ok (regs, false)
  else if stop < start then .ok (regs, false)
  else do
    match ← regionLoop start stop nocheck regs.reg regs.num 0 with
    | none => .ok (regs, false)
    | some (i, reg) =>
        let reg ← storeEntry reg i (start, (stop - start) % 2 ^ 32)
        .ok ({ regs with num := regs.num + 1, reg }, true)

/-! ## The part in use -/

namespace EfiImageRegions

def used (regs : EfiImageRegions) : List ImageRegion := regs.reg.take regs.num

/-- The array has the room it is to have. -/
structure Valid (regs : EfiImageRegions) : Prop where
  num_le : regs.num ≤ regs.max
  length_eq : regs.reg.length = regs.max

end EfiImageRegions

section

variable {start stop num i : ℕ} {reg front back : List ImageRegion} {nocheck : Bool}

/-- The loop comes to the place that `regionPlace` has for the region. -/
theorem regionLoop_achieves (hnum : num < reg.length) : ∀ {back front : List ImageRegion},
    reg.take num = front ++ back → front.length + back.length = num →
    Achieves (regionLoop start stop nocheck reg back.length front.length) fun r =>
      (r = none ∧ regionPlace start stop nocheck back = none) ∨
      ∃ i reg' back', r = some (i, reg') ∧ i < reg'.length ∧ reg'.length = reg.length ∧
        regionPlace start stop nocheck back = some back' ∧
        (reg'.set i (start, (stop - start) % 2 ^ 32)).take (num + 1) = front ++ back' := by
  intro back
  induction back with
  | nil =>
      intro front hused hlength
      have happend := Achieves.ok_iff.mp (shiftUp_insert (n := 0) (a := reg)
        (x := (start, (stop - start) % 2 ^ 32)) (by omega) hlength hused)
      rw [List.length_nil, Nat.add_zero] at hlength
      rw [List.length_nil, hlength]
      exact .ok (Or.inr ⟨num, reg, _, rfl, hnum, rfl, rfl, happend.2⟩)
  | cons r back ih =>
      intro front hused hlength
      rw [List.length_cons] at hlength
      have hnext : Achieves (regionLoop start stop nocheck reg back.length (front.length + 1))
          fun p =>
            (p = none ∧ (regionPlace start stop nocheck back).map (r :: ·) = none) ∨
            ∃ i reg' back', p = some (i, reg') ∧ i < reg'.length ∧ reg'.length = reg.length ∧
              (regionPlace start stop nocheck back).map (r :: ·) = some back' ∧
              (reg'.set i (start, (stop - start) % 2 ^ 32)).take (num + 1) = front ++ back' := by
        have hsplit : reg.take num = (front ++ [r]) ++ back := by
          rw [hused, List.append_assoc, List.singleton_append]
        have hfront : (front ++ [r]).length = front.length + 1 := List.length_append ..
        rw [← hfront]
        refine (ih hsplit (by omega)).mono ?_
        rintro p (⟨rfl, hnone⟩ | ⟨i, reg', back', rfl, hi, hreg, hplace, htake⟩)
        · exact Or.inl ⟨rfl, by rw [hnone]; rfl⟩
        · refine Or.inr ⟨i, reg', r :: back', rfl, hi, hreg, by rw [hplace]; rfl, ?_⟩
          rw [htake, List.append_assoc, List.singleton_append]
      rw [List.length_cons, regionLoop, regionPlace]
      cases nocheck with
      | true =>
          rw [if_pos rfl, if_pos rfl]
          exact hnext
      | false =>
          have hget : entry reg front.length = .ok r := by
            have htake : (reg.take num)[front.length]? = some r := by
              rw [hused, List.getElem?_append_right (Nat.le_refl _), Nat.sub_self]
              rfl
            rw [List.getElem?_take_of_lt (by omega)] at htake
            rw [entry, htake]
          rw [if_neg Bool.false_ne_true, if_neg Bool.false_ne_true, hget, C.ok_bind]
          by_cases hbehind : r.stop ≤ start
          · rw [if_pos hbehind, if_pos hbehind]
            exact hnext
          rw [if_neg hbehind, if_neg hbehind]
          by_cases hbefore : stop ≤ r.1
          · rw [if_pos hbefore, if_pos hbefore]
            have hroom := shiftUp_insert (x := (start, (stop - start) % 2 ^ 32))
              (show front.length + (back.length + 1) < reg.length by omega) rfl
              (hlength.symm ▸ hused)
            refine .bind hroom ?_
            rintro reg' ⟨hreg, htake⟩
            refine .ok (Or.inr ⟨_, reg', _, rfl, by omega, hreg, rfl, ?_⟩)
            rw [← hlength]
            exact htake
          · rw [if_neg hbefore, if_neg hbefore]
            exact .ok (Or.inl ⟨rfl, rfl⟩)

end

namespace EfiImageRegions

variable {regs : EfiImageRegions}

/-- On the part in use the function is the insertion into a list. -/
theorem add_eq (h : regs.Valid) (start stop : ℕ) (nocheck : Bool) :
    Achieves (regs.add start stop nocheck) fun r =>
      (r.1.used, r.2) = efiImageRegionAdd regs.max regs.used start stop nocheck ∧
      r.1.Valid ∧ (r.2 = false → r.1 = regs) := by
  have hused : regs.used.length = regs.num := by
    rw [used, List.length_take, h.length_eq]
    exact min_eq_left h.num_le
  rw [add, efiImageRegionAdd, hused]
  refine .ite (fun hfull => ?_) (fun hroom => ?_)
  · rw [if_pos hfull]
    exact .ok ⟨rfl, h, fun _ => rfl⟩
  rw [if_neg hroom]
  refine .ite (fun hends => ?_) (fun hends => ?_)
  · rw [if_pos hends]
    exact .ok ⟨rfl, h, fun _ => rfl⟩
  rw [if_neg hends]
  have hlt : regs.num < regs.reg.length := by
    rw [h.length_eq]
    omega
  have hloop := @regionLoop_achieves start stop regs.num regs.reg nocheck hlt regs.used [] rfl
    (by rw [hused]; exact Nat.zero_add _)
  rw [hused] at hloop
  refine hloop.bind ?_
  rintro r (⟨rfl, hnone⟩ | ⟨i, reg', back', rfl, hi, hreg, hplace, htake⟩)
  · rw [hnone]
    exact .ok ⟨rfl, h, fun _ => rfl⟩
  · rw [hplace]
    dsimp only
    rw [storeEntry_of_lt hi]
    refine .ok ⟨?_, ⟨Nat.lt_of_not_le hroom, ?_⟩, fun h => absurd h.symm Bool.false_ne_true⟩
    · rw [used]
      exact congrArg (·, true) htake
    · exact (List.length_set ..).trans (hreg.trans h.length_eq)

/-! ## Well-formed lists -/

/-- The region ends where another one starts, or before. -/
def Before (r s : ImageRegion) : Prop := r.stop ≤ s.1

instance (r s : ImageRegion) : Decidable (Before r s) := inferInstanceAs (Decidable (_ ≤ _))

instance : Trans Before Before Before where
  trans h h' := le_trans h (le_trans (Nat.le_add_right ..) h')

/-- Each region ends at or before the start of the next. -/
def WellFormed (regs : List ImageRegion) : Prop := regs.IsChain Before

/-- The new region has the ones that end in front of it before it, and the others behind it. -/
theorem regionPlace_spec {start stop : ℕ} :
    ∀ {regs : List ImageRegion}, regs.Pairwise Before →
    (∃ front back, regs = front ++ back ∧ (∀ r ∈ front, r.stop ≤ start) ∧ (∀ r ∈ back, stop ≤ r.1) ∧
      regionPlace start stop false regs
        = some (front ++ (start, (stop - start) % 2 ^ 32) :: back)) ∨
    (regionPlace start stop false regs = none ∧ ∃ r ∈ regs, start < r.stop ∧ r.1 < stop) := by
  intro regs
  induction regs with
  | nil => exact fun _ => Or.inl ⟨[], [], rfl, nofun, nofun, rfl⟩
  | cons r regs ih =>
      intro hregs
      obtain ⟨hr, hregs⟩ := List.pairwise_cons.mp hregs
      rw [regionPlace, if_neg Bool.false_ne_true]
      by_cases hbehind : r.stop ≤ start
      · rw [if_pos hbehind]
        rcases ih hregs with ⟨front, back, rfl, hfront, hback, hplace⟩ | ⟨hnone, s, hs, hover⟩
        · refine Or.inl ⟨r :: front, back, rfl, ?_, hback, by rw [hplace]; rfl⟩
          exact List.forall_mem_cons.mpr ⟨hbehind, hfront⟩
        · exact Or.inr ⟨by rw [hnone]; rfl, s, List.mem_cons_of_mem r hs, hover⟩
      rw [if_neg hbehind]
      by_cases hbefore : stop ≤ r.1
      · rw [if_pos hbefore]
        refine Or.inl ⟨[], r :: regs, rfl, nofun, List.forall_mem_cons.mpr ⟨hbefore, ?_⟩, rfl⟩
        intro s hs
        exact le_trans hbefore (le_trans (Nat.le_add_right ..) (hr s hs))
      · rw [if_neg hbefore]
        exact Or.inr ⟨rfl, r, List.mem_cons_self, by omega, by omega⟩

/-- **A region is added** to a well-formed list if there is room for it, it does not end before
it starts, and it overlaps none of the list; the list is well formed then, with the region in
it. Otherwise the list stays as it is. -/
theorem add_wellFormed (regs : EfiImageRegions) (start stop : ℕ) (h : regs.Valid)
    (hwf : WellFormed regs.used) (hsize : stop - start < 2 ^ 32) :
    ∃ regs' added, regs.add start stop false = .ok (regs', added) ∧
      (added = true ↔ regs.num < regs.max ∧ start ≤ stop ∧
        ∀ r ∈ regs.used, ¬(start < r.stop ∧ r.1 < stop)) ∧
      (added = true → ∃ front back, regs.used = front ++ back ∧
        regs'.used = front ++ (start, stop - start) :: back ∧ WellFormed regs'.used ∧
        regs'.Valid) ∧
      (added = false → regs' = regs) := by
  obtain ⟨⟨regs', added⟩, hadd, heq, hvalid, hfails⟩ := add_eq h start stop false
  refine ⟨regs', added, hadd, ?_⟩
  have hpairs : regs.used.Pairwise Before := List.isChain_iff_pairwise.mp hwf
  have hused : regs.used.length = regs.num := by
    rw [used, List.length_take, h.length_eq]
    exact min_eq_left h.num_le
  rw [efiImageRegionAdd, hused] at heq
  by_cases hroom : regs.max ≤ regs.num
  · rw [if_pos hroom, Prod.mk.injEq] at heq
    obtain ⟨-, rfl⟩ := heq
    exact ⟨iff_of_false Bool.false_ne_true (by omega), (absurd · Bool.false_ne_true), hfails⟩
  rw [if_neg hroom] at heq
  by_cases hends : stop < start
  · rw [if_pos hends, Prod.mk.injEq] at heq
    obtain ⟨-, rfl⟩ := heq
    exact ⟨iff_of_false Bool.false_ne_true (by omega), (absurd · Bool.false_ne_true), hfails⟩
  rw [if_neg hends] at heq
  rcases regionPlace_spec hpairs with
    ⟨front, back, hsplit, hfront, hback, hplace⟩ | ⟨hnone, r, hr, hover⟩
  · rw [hplace, Nat.mod_eq_of_lt hsize, Prod.mk.injEq] at heq
    obtain ⟨hused', rfl⟩ := heq
    refine ⟨iff_of_true rfl ⟨by omega, by omega, ?_⟩, ?_, hfails⟩
    · intro r hr hover
      rw [hsplit, List.mem_append] at hr
      rcases hr with hr | hr
      · have := hfront r hr
        omega
      · have := hback r hr
        omega
    · intro _
      refine ⟨front, back, hsplit, hused', ?_, hvalid⟩
      rw [hsplit] at hpairs
      obtain ⟨hfronts, hbacks, hcross⟩ := List.pairwise_append.mp hpairs
      rw [WellFormed, hused', List.isChain_iff_pairwise, List.pairwise_append,
        List.pairwise_cons]
      refine ⟨hfronts, ⟨?_, hbacks⟩, ?_⟩
      · intro r hr
        have hstop : start + (stop - start) = stop := by omega
        exact le_of_eq_of_le hstop (hback r hr)
      · intro r hr s hs
        rcases List.mem_cons.mp hs with rfl | hs
        · exact hfront r hr
        · exact hcross r hr s hs
  · rw [hnone, Prod.mk.injEq] at heq
    obtain ⟨-, rfl⟩ := heq
    exact ⟨iff_of_false Bool.false_ne_true fun h => h.2.2 r hr hover, (absurd · Bool.false_ne_true), hfails⟩

def twoRegions : EfiImageRegions := ⟨3, 2, [(0, 4), (8, 8), (0, 0)]⟩

theorem add_wellFormed_between : ∃ regs' added, twoRegions.add 4 8 false = .ok (regs', added) ∧
    (added = true ↔ twoRegions.num < twoRegions.max ∧ 4 ≤ 8 ∧
      ∀ r ∈ twoRegions.used, ¬(4 < r.stop ∧ r.1 < 8)) ∧
    (added = true → ∃ front back, twoRegions.used = front ++ back ∧
      regs'.used = front ++ (4, 8 - 4) :: back ∧ WellFormed regs'.used ∧ regs'.Valid) ∧
    (added = false → regs' = twoRegions) :=
  add_wellFormed twoRegions 4 8 ⟨by decide, rfl⟩ (.cons_cons (by decide) (.singleton _)) (by decide)

end EfiImageRegions

end Nawam
