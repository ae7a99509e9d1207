import Nawam.Base.BitSet
import Nawam.Base.Insertion
import Mathlib.Algebra.Ring.Basic

/-!
# Processors for the threads

`SetThreadAffinity` gives each of the threads that compute hashes its processors. The lowest bits
of the mask of the process are taken off one by one and go to the masks of all threads but the
last; from the mask of the last thread, which begins as the one of the process, they are taken
off by exclusive or. So it is always what is left.

A `DWORD_PTR` of 32 bits is one of 64 bits of which the upper half is zero.
-/

namespace Nawam

/-! ## Source -/

def popcntStep (mask : UInt64) (shift : UInt64) (u : UInt64) : UInt64 :=
  (u &&& mask) + ((u >>> shift) &&& mask)

def popcnt64 (u : UInt64) : UInt8 :=
  let u := popcntStep 0x5555555555555555 1 u
  let u := popcntStep 0x3333333333333333 2 u
  let u := popcntStep 0x0f0f0f0f0f0f0f0f 4 u
  let u := popcntStep 0x00ff00ff00ff00ff 8 u
  let u := popcntStep 0x0000ffff0000ffff 16 u
  let u := popcntStep 0x00000000ffffffff 32 u
  u.toUInt8

/-- The loop over `j`: the mask of the thread, and `affinity` -/
def takeLowest : (n : ℕ) → (mask affinity : UInt64) → UInt64 × UInt64
  | 0, mask, affinity => (mask, affinity)
  | n + 1, mask, affinity =>
      takeLowest n (mask ||| (affinity &&& (-1 * affinity)))
        (affinity ^^^ (affinity &&& (-1 * affinity)))

/-- The loop over `i`, so many turns before its end -/
def spreadLoop (share : ℕ) : (left i : ℕ) → List UInt64 → UInt64 → C (List UInt64)
  | 0, _, threadAffinity, _ => .ok threadAffinity
  | left + 1, i, threadAffinity, affinity => do
      let mask ← entry threadAffinity i
      let (mask, affinity) := takeLowest share mask affinity
      let threadAffinity ← storeEntry threadAffinity i mask
      let last ← entry threadAffinity (threadAffinity.length - 1)
      let threadAffinity ← storeEntry threadAffinity (threadAffinity.length - 1) (last ^^^ mask)
      spreadLoop share left (i + 1) threadAffinity affinity

/-- `SetThreadAffinity`: what it returns, and the array. `processMask` is what
`GetProcessAffinityMask` gives, none if it fails. -/
def setThreadAffinity (processMask : Option UInt64) (threadAffinity : List UInt64) :
    C (Bool × List UInt64) :=
  let numThreads := threadAffinity.length
  let threadAffinity := List.replicate numThreads 0
  match processMask with
  | none => .ok (false, threadAffinity)
  | some affinity => do
      let pc := (popcnt64 affinity).toNat
      if pc < numThreads then .ok (false, threadAffinity)
      else do
        let threadAffinity ← storeEntry threadAffinity (numThreads - 1) affinity
        let share ← divide pc numThreads
        let threadAffinity ← spreadLoop share (numThreads - 1) 0 threadAffinity affinity
        .ok (true, threadAffinity)

/-! ## The bits are counted -/

theorem popcntStep_eq {w k : ℕ} {mask shift : UInt64} (hw : 0 < w) (hlt : w < 64)
    (hk : 2 * w * k = 64) (hmask : mask.toNat = lowerHalves w k) (hshift : shift.toNat = w)
    (u : UInt64) : (popcntStep mask shift u).toNat = addPairs w k u.toNat := by
  have hfit := addPairs_lt hw k u.toNat
  rw [hk] at hfit
  rw [popcntStep, UInt64.toNat_add, UInt64.toNat_and, UInt64.toNat_and, UInt64.toNat_shiftRight,
    hmask, hshift, Nat.mod_eq_of_lt hlt]
  exact Nat.mod_eq_of_lt hfit

theorem card_bitSet_le (u : UInt64) : (bitSet u).card ≤ 64 := by
  have h := Finset.card_filter_le (Finset.range 64) fun i => u.toBitVec.getLsbD i
  rw [Finset.card_range] at h
  exact h

theorem popcnt64_eq (u : UInt64) : (popcnt64 u).toNat = (bitSet u).card := by
  have hstep {w k : ℕ} {mask shift : UInt64} (hw : 0 < w) (hlt : w < 64) (hk : 2 * w * k = 64)
      (hmask : mask.toNat = lowerHalves w k) (hshift : shift.toNat = w) (u : UInt64) :
      fieldSum (2 * w) k (popcntStep mask shift u).toNat = fieldSum w (2 * k) u.toNat := by
    rw [popcntStep_eq hw hlt hk hmask hshift, fieldSum_addPairs hw]
  have hword (u : UInt64) : fieldSum 64 1 u.toNat = u.toNat := by
    rw [fieldSum, Nat.mod_eq_of_lt u.toNat_lt]
    rfl
  have hcount := card_bitSet_le u
  rw [card_bitSet] at hcount ⊢
  rw [popcnt64, UInt64.toNat_toUInt8, ← hword,
    hstep (w := 32) (k := 1) (by decide) (by decide) rfl (by decide) rfl,
    hstep (w := 16) (k := 2) (by decide) (by decide) rfl (by decide) rfl,
    hstep (w := 8) (k := 4) (by decide) (by decide) rfl (by decide) rfl,
    hstep (w := 4) (k := 8) (by decide) (by decide) rfl (by decide) rfl,
    hstep (w := 2) (k := 16) (by decide) (by decide) rfl (by decide) rfl,
    hstep (w := 1) (k := 32) (by decide) (by decide) rfl (by decide) rfl]
  exact Nat.mod_eq_of_lt (lt_of_le_of_lt hcount (by decide))

/-! ## The loops -/

/-- `n` bits go from `affinity` to the mask. -/
theorem takeLowest_spec : ∀ {n : ℕ} (mask : UInt64) {affinity : UInt64}, n ≤ (bitSet affinity).card →
    ∃ taken ⊆ bitSet affinity, taken.card = n ∧
      bitSet (takeLowest n mask affinity).1 = bitSet mask ∪ taken ∧
      bitSet (takeLowest n mask affinity).2 = bitSet affinity \ taken := by
  intro n
  induction n with
  | zero =>
      intro mask affinity _
      exact ⟨∅, Finset.empty_subset _, rfl, (Finset.union_empty _).symm, Finset.sdiff_empty.symm⟩
  | succ n ih =>
      intro mask affinity hn
      obtain ⟨t, ht, hlowest⟩ := bitSet_lowest (a := affinity) (Finset.card_pos.mp (by omega))
      rw [takeLowest, neg_one_mul]
      have hsub : bitSet (affinity &&& -affinity) ⊆ bitSet affinity := by
        rw [hlowest]
        exact Finset.singleton_subset_iff.mpr ht
      have hrest : bitSet (affinity ^^^ (affinity &&& -affinity)) = (bitSet affinity).erase t := by
        rw [bitSet_xor_of_subset hsub, hlowest, Finset.sdiff_singleton_eq_erase]
      have hcard : n ≤ (bitSet (affinity ^^^ (affinity &&& -affinity))).card := by
        rw [hrest, Finset.card_erase_of_mem ht]
        omega
      obtain ⟨taken, htaken, hn', hmask, haffinity⟩ := ih (mask ||| (affinity &&& -affinity)) hcard
      rw [hrest] at htaken haffinity
      have hnew : t ∉ taken := fun h => Finset.notMem_erase t _ (htaken h)
      refine ⟨insert t taken, ?_, ?_, ?_, ?_⟩
      · exact Finset.insert_subset ht (htaken.trans (Finset.erase_subset _ _))
      · rw [Finset.card_insert_of_notMem hnew, hn']
      · rw [hmask, bitSet_or, hlowest, Finset.union_assoc, Finset.singleton_union]
      · rw [haffinity, ← Finset.sdiff_singleton_eq_erase, sdiff_sdiff, Finset.insert_eq]
        rfl

/-- So many of the first masks have been made: they and what is left are the bits of `mask`. -/
structure Spread (mask : UInt64) (share : ℕ) (done : List UInt64) (affinity : UInt64) : Prop where
  disjoint : (done ++ [affinity]).Pairwise fun a b => Disjoint (bitSet a) (bitSet b)
  union : ∀ p, p ∈ bitSet mask ↔ ∃ m ∈ done ++ [affinity], p ∈ bitSet m
  share_eq : ∀ m ∈ done, (bitSet m).card = share
  rest : (bitSet affinity).card + done.length * share = (bitSet mask).card

variable {mask affinity : UInt64} {share : ℕ} {done : List UInt64}

theorem Spread.start (mask : UInt64) (share : ℕ) : Spread mask share [] mask where
  disjoint := List.pairwise_singleton ..
  union := by
    intro p
    simp
  share_eq := nofun
  rest := by rw [List.length_nil, Nat.zero_mul, Nat.add_zero]

theorem Spread.turn (h : Spread mask share done affinity) (hshare : share ≤ (bitSet affinity).card) :
    Spread mask share (done ++ [(takeLowest share 0 affinity).1])
        (takeLowest share 0 affinity).2 ∧
      affinity ^^^ (takeLowest share 0 affinity).1 = (takeLowest share 0 affinity).2 := by
  obtain ⟨taken, htaken, hcard, hmask, haffinity⟩ := takeLowest_spec 0 hshare
  obtain ⟨m, hm⟩ : ∃ m, (takeLowest share 0 affinity).1 = m := ⟨_, rfl⟩
  obtain ⟨a, ha⟩ : ∃ a, (takeLowest share 0 affinity).2 = a := ⟨_, rfl⟩
  rw [hm, ha]
  rw [hm, bitSet_zero, Finset.empty_union] at hmask
  rw [ha] at haffinity
  obtain ⟨hdone, -, hapart⟩ := List.pairwise_append.mp h.disjoint
  have hapart' : ∀ b ∈ done, Disjoint (bitSet b) (bitSet affinity) :=
    fun b hb => hapart b hb affinity (List.mem_singleton_self affinity)
  refine ⟨⟨?_, ?_, ?_, ?_⟩, ?_⟩
  · rw [List.append_assoc, List.singleton_append]
    refine List.pairwise_append.mpr ⟨hdone, ?_, ?_⟩
    · refine List.pairwise_pair.mpr ?_
      rw [hmask, haffinity]
      exact Finset.disjoint_sdiff
    · intro b hb c hc
      have hsub : bitSet c ⊆ bitSet affinity := by
        rcases List.mem_pair.mp hc with rfl | rfl
        · rw [hmask]
          exact htaken
        · rw [haffinity]
          exact Finset.sdiff_subset
      exact (hapart' b hb).mono_right hsub
  · intro p
    have hsplit : p ∈ bitSet affinity ↔ p ∈ bitSet m ∨ p ∈ bitSet a := by
      rw [hmask, haffinity, ← Finset.mem_union, Finset.union_sdiff_of_subset htaken]
    rw [h.union p]
    simp only [List.mem_append, List.mem_singleton, or_and_right, exists_or, exists_eq_left, hsplit,
      or_assoc]
  · intro b hb
    rcases List.mem_append.mp hb with hb | hb
    · exact h.share_eq b hb
    · rw [List.mem_singleton.mp hb, hmask, hcard]
  · have hrest := h.rest
    have hsize := Finset.card_sdiff_add_card_eq_card htaken
    rw [haffinity, List.length_append, List.length_singleton, Nat.add_mul, Nat.one_mul]
    omega
  · apply bitSet_injective
    have hsub : bitSet m ⊆ bitSet affinity := by
      rw [hmask]
      exact htaken
    rw [bitSet_xor_of_subset hsub, hmask, haffinity]

/-- The loop over `i`, from any turn on -/
theorem spreadLoop_achieves : ∀ {left : ℕ} {done : List UInt64} {affinity : UInt64},
    Spread mask share done affinity → (done.length + left + 1) * share ≤ (bitSet mask).card →
    Achieves (spreadLoop share left done.length
      (done ++ (List.replicate left 0 ++ [affinity])) affinity) fun masks =>
        ∃ done' affinity', masks = done' ++ [affinity'] ∧ done'.length = done.length + left ∧
          Spread mask share done' affinity' := by
  intro left
  induction left with
  | zero => exact fun {done affinity} h _ => .ok ⟨done, affinity, rfl, rfl, h⟩
  | succ left ih =>
      intro done affinity h hroom
      have hshare : share ≤ (bitSet affinity).card := by
        have hrest := h.rest
        have htwo : (done.length + 2) * share ≤ (done.length + (left + 1) + 1) * share :=
          Nat.mul_le_mul_right share (by omega)
        rw [Nat.add_mul] at htwo
        omega
      obtain ⟨hturn, hlast⟩ := h.turn hshare
      obtain ⟨m, hm⟩ : ∃ m, (takeLowest share 0 affinity).1 = m := ⟨_, rfl⟩
      obtain ⟨a, ha⟩ : ∃ a, (takeLowest share 0 affinity).2 = a := ⟨_, rfl⟩
      rw [hm, ha] at hturn hlast
      have hlength : (done ++ [m]).length = done.length + 1 := List.length_append
      -- the array, cut at the last mask
      have hcut (x : UInt64) : done ++ m :: (List.replicate left 0 ++ [x]) =
          (done ++ m :: List.replicate left 0) ++ [x] := by
        rw [List.append_assoc, List.cons_append]
      have hcount : ((done ++ m :: List.replicate left 0) ++ [affinity]).length - 1 =
          (done ++ m :: List.replicate left 0).length := by
        rw [List.length_append, List.length_singleton, Nat.add_sub_cancel]
      have hnext : (done ++ m :: List.replicate left 0) ++ [a] =
          (done ++ [m]) ++ (List.replicate left 0 ++ [a]) := by
        rw [← hcut, List.append_assoc, List.singleton_append]
      rw [List.replicate_succ, List.cons_append, spreadLoop, entry_append_cons, C.ok_bind]
      dsimp only
      rw [hm, ha, storeEntry_append_cons, C.ok_bind, hcut, hcount, entry_append_cons, C.ok_bind,
        storeEntry_append_cons, C.ok_bind, hlast, hnext, ← hlength]
      refine (ih hturn (by rw [hlength, Nat.add_right_comm done.length]; exact hroom)).mono ?_
      rintro masks ⟨done', affinity', hmasks, hdone, hspread⟩
      refine ⟨done', affinity', hmasks, ?_, hspread⟩
      rw [hdone, hlength]
      omega

/-- The masks divide the processors of `mask` up: each has its share, and the last one the rest. -/
structure DividesUp (masks : List UInt64) (mask : UInt64) : Prop where
  disjoint : masks.Pairwise fun a b => Disjoint (bitSet a) (bitSet b)
  union : ∀ p, p ∈ bitSet mask ↔ ∃ m ∈ masks, p ∈ bitSet m
  share_eq : ∀ m ∈ masks.dropLast, (bitSet m).card = (bitSet mask).card / masks.length
  last_eq : ∃ m, masks.getLast? = some m ∧
    (bitSet m).card = (bitSet mask).card - (masks.length - 1) * ((bitSet mask).card / masks.length) ∧
    (bitSet mask).card / masks.length ≤ (bitSet m).card

theorem Spread.dividesUp (h : Spread mask ((bitSet mask).card / (done.length + 1)) done affinity) :
    DividesUp (done ++ [affinity]) mask := by
  have hlength : (done ++ [affinity]).length = done.length + 1 := List.length_append
  have hrest := h.rest
  have hle := Nat.mul_div_le (bitSet mask).card (done.length + 1)
  rw [Nat.add_mul, Nat.one_mul] at hle
  refine ⟨h.disjoint, h.union, ?_, affinity, List.getLast?_concat .., ?_, ?_⟩
  · rw [List.dropLast_concat, hlength]
    exact h.share_eq
  · rw [hlength, Nat.add_sub_cancel]
    omega
  · rw [hlength]
    omega

/-- There are masks for the threads if and only if the process has a processor for each. -/
theorem setThreadAffinity_achieves (processMask : Option UInt64) {threadAffinity : List UInt64}
    (hne : threadAffinity ≠ []) :
    Achieves (setThreadAffinity processMask threadAffinity) fun r =>
      r.2.length = threadAffinity.length ∧
      (r.1 = true → ∃ mask, processMask = some mask ∧ DividesUp r.2 mask) ∧
      (r.1 = false → r.2 = List.replicate threadAffinity.length 0) ∧
      ∀ mask, processMask = some mask →
        (r.1 = true ↔ threadAffinity.length ≤ (bitSet mask).card) := by
  unfold setThreadAffinity
  cases processMask with
  | none =>
      refine .ok ⟨List.length_replicate, nofun, fun _ => rfl, nofun⟩
  | some mask =>
      dsimp only
      rw [popcnt64_eq]
      refine .ite (fun hfew => ?_) (fun hmany => ?_)
      · refine .ok ⟨List.length_replicate, nofun, fun _ => rfl, ?_⟩
        rintro _ ⟨⟩
        exact ⟨nofun, fun h => absurd hfew (Nat.not_lt.mpr h)⟩
      · obtain ⟨left, hleft⟩ : ∃ left, threadAffinity.length = left + 1 :=
          ⟨_, (Nat.succ_pred_eq_of_pos (List.length_pos_iff.mpr hne)).symm⟩
        rw [hleft, Nat.add_sub_cancel, List.replicate_succ', divide_of_pos (Nat.succ_pos left)]
        have hstore := storeEntry_append_cons (List.replicate left (0 : UInt64)) 0 mask []
        rw [List.length_replicate] at hstore
        rw [hstore, C.ok_bind, C.ok_bind]
        have hroom : (([] : List UInt64).length + left + 1) * ((bitSet mask).card / (left + 1)) ≤
            (bitSet mask).card := by
          rw [List.length_nil, Nat.zero_add]
          exact Nat.mul_div_le ..
        refine .bind (spreadLoop_achieves (Spread.start mask _) hroom) ?_
        rintro masks ⟨done, affinity, rfl, hdone, hspread⟩
        rw [List.length_nil, Nat.zero_add] at hdone
        subst hdone
        refine .ok ⟨List.length_append, fun _ => ⟨mask, rfl, hspread.dividesUp⟩, nofun, ?_⟩
        rintro _ ⟨⟩
        exact ⟨fun _ => by omega, fun _ => rfl⟩

/-- Four processors for three threads -/
theorem setThreadAffinity_achieves_at_three :
    ∃ masks, setThreadAffinity (some 0x5A) [7, 7, 7] = .ok (true, masks) ∧ DividesUp masks 0x5A := by
  obtain ⟨⟨ok, masks⟩, hrun, -, hdivides, -, hiff⟩ :=
    setThreadAffinity_achieves (some 0x5A) (show [7, 7, 7] ≠ [] by decide)
  obtain rfl : ok = true := (hiff 0x5A rfl).mpr (by decide +kernel)
  obtain ⟨mask, hmask, hmasks⟩ := hdivides rfl
  obtain rfl := Option.some.inj hmask
  exact ⟨masks, hrun, hmasks⟩

end Nawam
