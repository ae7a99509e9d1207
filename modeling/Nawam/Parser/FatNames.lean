import Nawam.Parser.FatDirectory

/-!
# The names that libfat makes

The name that is made out of an 8.3 name is that name if and only if it is a
plain one (`shortNameOf_eq_iff`). A set of up to 15 entries is collected piece
by piece, from the last one to the first (`walkList_set`), and what is collected
reads as the name (`dirItem_of_long`). Whatever the entries are, no name is
longer than the 195 characters of 15 entries (`walkList_shortEnough`).
-/

namespace Nawam

/-! ## 8.3 names -/

theorem shortChar_base (caseflags : UInt8) {i : ℕ} (hi : i < 8) (c : UInt8) :
    shortChar caseflags i c = lowerIf (caseflags &&& 0x02 ≠ 0) c := by
  have hi' : ¬8 ≤ i := not_le.mpr hi
  refine if_congr ?_ rfl rfl
  simp [IsCapital, hi, hi', and_comm, and_left_comm]

theorem shortChar_extension (caseflags : UInt8) {i : ℕ} (hi : 8 ≤ i) (c : UInt8) :
    shortChar caseflags i c = lowerIf (caseflags &&& 0x04 ≠ 0) c := by
  have hi' : ¬i < 8 := not_lt.mpr hi
  refine if_congr ?_ rfl rfl
  simp [IsCapital, hi, hi', and_comm, and_left_comm]

/-- In the base blanks are left out, wherever they stand. -/
theorem shortNameFrom_base (caseflags : UInt8) (rest : List UInt8) :
    ∀ {i : ℕ} {bs : List UInt8}, i + bs.length ≤ 8 →
      shortNameFrom caseflags i (bs ++ rest) =
        (bs.filter (· ≠ 32)).map (lowerIf (caseflags &&& 0x02 ≠ 0)) ++
          shortNameFrom caseflags (i + bs.length) rest
  | i, [], _ => rfl
  | i, c :: bs, hi => by
      rw [List.length_cons] at hi
      have ih := @shortNameFrom_base caseflags rest (i + 1) bs (by omega)
      have hlen : i + (c :: bs).length = i + 1 + bs.length := by
        rw [List.length_cons]
        omega
      rw [List.cons_append, shortNameFrom, if_neg (by omega), if_neg (by omega), ih, hlen,
        List.nil_append]
      by_cases hc : c = 32
      · simp [hc]
      · simp [hc, shortChar_base caseflags (show i < 8 by omega)]

/-- From the second character of the extension on. -/
theorem shortNameFrom_extension (caseflags : UInt8) : ∀ {i : ℕ} {cs : List UInt8}, 8 < i →
    shortNameFrom caseflags i cs =
      (cs.takeWhile (· ≠ 32)).map (lowerIf (caseflags &&& 0x04 ≠ 0))
  | i, [], _ => rfl
  | i, c :: cs, hi => by
      have ih := @shortNameFrom_extension caseflags (i + 1) cs (by omega)
      rw [shortNameFrom, ih, if_neg (show ¬i = 8 by omega)]
      by_cases hc : c = 32
      · simp [hc, hi.le]
      · simp [hc, shortChar_extension caseflags hi.le]

/-- The extension ends where its first blank stands. -/
theorem shortNameFrom_eight (caseflags : UInt8) (cs : List UInt8) :
    shortNameFrom caseflags 8 cs =
      if cs.takeWhile (· ≠ 32) = [] then []
      else 46 :: (cs.takeWhile (· ≠ 32)).map (lowerIf (caseflags &&& 0x04 ≠ 0)) := by
  cases cs with
  | nil => rfl
  | cons c cs =>
      rw [shortNameFrom, shortNameFrom_extension caseflags (by decide)]
      by_cases hc : c = 32
      · simp [hc]
      · simp [hc, shortChar_extension caseflags (le_refl 8)]

theorem shortNameOf_eq {e : FatDirent} (hlen : e.length = 32) :
    shortNameOf e =
      ((e.shortBytes.take 8).filter (· ≠ 32)).map (lowerIf (e.caseflags &&& 0x02 ≠ 0)) ++
        if (e.shortBytes.drop 8).takeWhile (· ≠ 32) = [] then []
        else 46 :: ((e.shortBytes.drop 8).takeWhile (· ≠ 32)).map
          (lowerIf (e.caseflags &&& 0x04 ≠ 0)) := by
  have hbase : (e.shortBytes.take 8).length = 8 := by
    rw [FatDirent.shortBytes, List.length_take, List.length_take, hlen]
    rfl
  have h := @shortNameFrom_base e.caseflags (e.shortBytes.drop 8) 0
    (e.shortBytes.take 8) (by omega)
  rwa [List.take_append_drop, hbase, Nat.zero_add, shortNameFrom_eight] at h

theorem exists_trimBlanks (bs : List UInt8) :
    ∃ n, bs = trimBlanks bs ++ List.replicate n 32 := by
  refine ⟨(bs.rtakeWhile (· = 32)).length, ?_⟩
  have hblank : bs.rtakeWhile (· = 32) =
      List.replicate (bs.rtakeWhile (· = 32)).length 32 := by
    refine List.eq_replicate_iff.mpr ⟨rfl, fun c hc => ?_⟩
    simpa using List.mem_rtakeWhile_imp hc
  rw [← hblank]
  exact (List.rdropWhile_append_rtakeWhile).symm

theorem filter_of_trimBlanks {bs : List UInt8} (h : 32 ∉ trimBlanks bs) :
    bs.filter (· ≠ 32) = trimBlanks bs := by
  obtain ⟨n, hbs⟩ := exists_trimBlanks bs
  have hkeep : (trimBlanks bs).filter (· ≠ 32) = trimBlanks bs := by
    refine List.filter_eq_self.mpr fun c hc => ?_
    simpa using ne_of_mem_of_not_mem hc h
  conv_lhs => rw [hbs]
  rw [List.filter_append, hkeep]
  simp

theorem takeWhile_of_trimBlanks {bs : List UInt8} (h : 32 ∉ trimBlanks bs) :
    bs.takeWhile (· ≠ 32) = trimBlanks bs := by
  obtain ⟨n, hbs⟩ := exists_trimBlanks bs
  conv_lhs => rw [hbs]
  rw [List.takeWhile_append_of_pos]
  · simp
  · intro c hc
    simpa using ne_of_mem_of_not_mem hc h

theorem map_lowerIf_eq_iff {lower lower' : Prop} [Decidable lower] [Decidable lower']
    {bs : List UInt8} :
    bs.map (lowerIf lower) = bs.map (lowerIf lower') ↔
      ∀ c ∈ bs, IsCapital c → (lower ↔ lower') := by
  rw [List.map_inj_left]
  exact forall₂_congr fun c _ => lowerIf_eq_iff

/-- What is made of an 8.3 name has no blanks. -/
theorem blank_not_mem_shortNameOf {e : FatDirent} (hlen : e.length = 32) :
    (32 : Wchar) ∉ shortNameOf e := by
  have hbase : (32 : Wchar) ∉ ((e.shortBytes.take 8).filter (· ≠ 32)).map
      (lowerIf (e.caseflags &&& 0x02 ≠ 0)) := by
    rw [List.mem_map]
    rintro ⟨c, hc, hblank⟩
    have hne := (List.mem_filter.mp hc).2
    simp [lowerIf_eq_blank_iff.mp hblank] at hne
  have hext : (32 : Wchar) ∉ ((e.shortBytes.drop 8).takeWhile (· ≠ 32)).map
      (lowerIf (e.caseflags &&& 0x04 ≠ 0)) := by
    rw [List.mem_map]
    rintro ⟨c, hc, hblank⟩
    have hne := List.mem_takeWhile_imp hc
    simp [lowerIf_eq_blank_iff.mp hblank] at hne
  rw [shortNameOf_eq hlen, List.mem_append, not_or]
  refine ⟨hbase, ?_⟩
  split
  case isTrue => exact List.not_mem_nil
  case isFalse =>
    rw [List.mem_cons, not_or]
    exact ⟨by decide, hext⟩

/-- A blank within an 8.3 name is one of its name. -/
theorem blank_mem_shortName {e : FatDirent} (h : 32 ∈ e.base ∨ 32 ∈ e.extension) :
    (32 : Wchar) ∈ e.shortName := by
  rw [FatDirent.shortName, List.mem_append]
  rcases h with h | h
  · exact .inl (List.mem_map.mpr ⟨32, h, lowerIf_eq_blank_iff.mpr rfl⟩)
  · rw [if_neg (List.ne_nil_of_mem h)]
    exact .inr (List.mem_cons_of_mem _ (List.mem_map.mpr ⟨32, h, lowerIf_eq_blank_iff.mpr rfl⟩))

/-- **When the name is the 8.3 name.** -/
theorem shortNameOf_eq_iff {e : FatDirent} (hlen : e.length = 32) :
    shortNameOf e = e.shortName ↔ IsPlainShort e := by
  by_cases hblank : 32 ∈ e.base ∨ 32 ∈ e.extension
  · refine iff_of_false (fun heq => ?_) fun h => hblank.elim h.base h.extension
    exact blank_not_mem_shortNameOf hlen (heq ▸ blank_mem_shortName hblank)
  · obtain ⟨hbase, hext⟩ := not_or.mp hblank
    have hsplit : shortNameOf e = e.shortName ↔
        e.base.map (lowerIf (e.caseflags &&& 0x02 ≠ 0)) =
            e.base.map (lowerIf (e.caseflags &&& 0x08 ≠ 0)) ∧
          e.extension.map (lowerIf (e.caseflags &&& 0x04 ≠ 0)) =
            e.extension.map (lowerIf (e.caseflags &&& 0x10 ≠ 0)) := by
      have hbase : (e.shortBytes.take 8).filter (· ≠ 32) = e.base :=
        filter_of_trimBlanks hbase
      have hext : (e.shortBytes.drop 8).takeWhile (· ≠ 32) = e.extension :=
        takeWhile_of_trimBlanks hext
      rw [shortNameOf_eq hlen, hbase, hext, FatDirent.shortName,
        List.append_eq_append_iff_of_size_eq_left (by simp)]
      by_cases hnil : e.extension = []
      · simp [hnil]
      · simp [hnil]
    rw [hsplit, map_lowerIf_eq_iff, map_lowerIf_eq_iff]
    exact ⟨fun ⟨h, h'⟩ => ⟨hbase, hext, h, h'⟩, fun h => ⟨h.baseCase, h.extensionCase⟩⟩

/-! ## Long names -/

/-- A set is read from the fields of `struct fat_vfat_slot`. -/
theorem units_eq (e : FatDirent) : e.units = e.slotUnits := rfl

/-- Numbers up to 15 are read back from what the entries hold. -/
theorem slotId_facts : ∀ k < 15,
    (UInt8.ofNat (k + 1) ||| 0x40) &&& 0xF0 = 0x40 ∧
    ((UInt8.ofNat (k + 1) ||| 0x40) &&& 0x0F).toNat = k + 1 ∧
    ((UInt8.ofNat (k + 1) ||| 0) &&& 0x0F).toNat = k + 1 ∧
    (UInt8.ofNat (k + 1) ||| 0x40) ≠ 0xe5 ∧ (UInt8.ofNat (k + 1) ||| 0x40) ≠ 46 ∧
    (UInt8.ofNat (k + 1) ||| 0x40) ≠ 0 := by
  decide

/-- What has been collected, down to the `k`-th piece. -/
def partialName (name : List Wchar) (k : ℕ) : List Wchar :=
  List.replicate (13 * k) 0 ++
    (((paddedName name).take (13 * slotCount name)).drop (13 * k) ++
      List.replicate (nameSize - 13 * slotCount name) 0)

section

variable {name : List Wchar}

theorem length_paddedName (name : List Wchar) :
    (paddedName name).length = name.length + 13 := by
  simp [paddedName]

theorem slotCount_mul_le (name : List Wchar) :
    name.length ≤ 13 * slotCount name ∧ 13 * slotCount name ≤ (paddedName name).length := by
  rw [length_paddedName, slotCount]
  omega

theorem partialName_slotCount (hn : slotCount name ≤ 15) :
    partialName name (slotCount name) = noName := by
  rw [partialName, List.drop_eq_nil_of_le (List.length_take_le _ _), List.nil_append,
    List.replicate_append_replicate, noName, nameSize]
  congr 1
  omega

theorem exists_partialName_zero (hn : slotCount name ≤ 15) :
    ∃ rest, partialName name 0 = name ++ 0 :: rest := by
  have hle := (slotCount_mul_le name).1
  obtain ⟨m, hm⟩ := Nat.exists_eq_add_of_le hle
  obtain ⟨r, hr⟩ := Nat.exists_eq_add_of_le (show 13 * slotCount name ≤ 195 by omega)
  have htake : (paddedName name).take (13 * slotCount name) =
      name ++ (0 :: List.replicate 12 0xFFFF).take m := by
    rw [hm, paddedName, List.take_length_add_append]
  have hzeros : List.replicate (nameSize - 13 * slotCount name) (0 : Wchar) =
      0 :: List.replicate (r + 60) 0 := by
    rw [← List.replicate_succ, nameSize]
    congr 1
    omega
  rw [partialName, htake, hzeros]
  cases m with
  | zero => exact ⟨List.replicate (r + 60) 0, by simp⟩
  | succ m =>
      exact ⟨(List.replicate 12 0xFFFF).take m ++ 0 :: List.replicate (r + 60) 0, by simp⟩

/-- **One piece more.** -/
theorem fillUtf16_slot {e slot : FatDirent} {k : ℕ}
    (hk : k < slotCount name) (hslot : IsSlot name e k slot) :
    fillUtf16 (partialName name (k + 1)) k slot = .ok (partialName name k) := by
  have hpad := (slotCount_mul_le name).2
  have hpieces : ((paddedName name).take (13 * slotCount name)).drop (13 * k) =
      slot.units ++
        ((paddedName name).take (13 * slotCount name)).drop (13 * (k + 1)) := by
    rw [units_eq, hslot.units, ← List.take_append_drop 13 (List.drop (13 * k) _),
      List.drop_drop, List.drop_take, List.take_take, Nat.min_eq_left (by omega)]
    rfl
  have hzeros : List.replicate (13 * (k + 1)) (0 : Wchar) =
      List.replicate (13 * k) 0 ++ List.replicate 13 0 := by
    rw [List.replicate_append_replicate]
    rfl
  have hlen : 13 * k + 13 ≤ (partialName name (k + 1)).length := by
    rw [partialName, List.length_append, List.length_replicate]
    omega
  rw [fillUtf16, if_pos hlen]
  conv_rhs => rw [partialName, hpieces]
  rw [partialName, hzeros]
  simp [List.drop_append]

/-- The state of the loop before the piece below the `m`-th one. -/
def nameState (name : List Wchar) (m : ℕ) : ℤ × List Wchar :=
  (if m = slotCount name then -1 else m, partialName name m)

theorem longNameBody_slot {e slot : FatDirent} {k : ℕ} (hn : slotCount name ≤ 15)
    (hk : k < slotCount name) (hslot : IsSlot name e k slot) :
    longNameBody (nameState name (k + 1)) slot = .ok (.on (nameState name k)) := by
  obtain ⟨hmark, hlast, hother, -⟩ := slotId_facts k (by omega)
  have hstate : nameState name k = ((k : ℤ), partialName name k) := by
    rw [nameState, if_neg hk.ne]
  have hindex : slotIndex (k : ℤ) = k := by
    rw [slotIndex, if_neg (by omega), Int.toNat_natCast]
  have hfill := fillUtf16_slot hk hslot
  by_cases htop : k + 1 = slotCount name
  · have hid : slot.id = UInt8.ofNat (k + 1) ||| 0x40 := by rw [hslot.id, if_pos htop]
    have hseq : ((slot.id &&& 0x0F).toNat : ℤ) - 1 = k := by
      rw [hid, hlast]
      omega
    rw [nameState, if_pos htop, longNameBody, if_neg (not_not.mpr hslot.attr),
      if_neg fun h => h.2 (by rw [hid, hmark])]
    simp only [hseq, hindex, hfill]
    rw [if_neg (by omega), hstate]
    rfl
  · have hid : slot.id = UInt8.ofNat (k + 1) ||| 0 := by rw [hslot.id, if_neg htop]
    have hseq : ((slot.id &&& 0x0F).toNat : ℤ) - 1 = k := by
      rw [hid, hother]
      omega
    rw [nameState, if_neg htop, longNameBody, if_neg (not_not.mpr hslot.attr),
      if_neg fun h => absurd h.1 (by omega)]
    simp only [hseq, hindex, hfill]
    rw [if_neg (by omega), hstate]
    rfl

/-- **A set is collected** from its last piece to its first. -/
theorem walkList_set {e : FatDirent} (hn : slotCount name ≤ 15) (rest : List FatDirent) :
    ∀ {m : ℕ} {set : List FatDirent}, m ≤ slotCount name →
      List.Forall₂ (IsSlot name e) (List.range m).reverse set →
      walkList longNameBody (nameState name m) (set ++ rest) =
        walkList longNameBody (nameState name 0) rest
  | 0, set, _, hset => by
      cases hset
      rfl
  | m + 1, set, hm, hset => by
      rw [List.range_succ, List.reverse_append] at hset
      cases hset with
      | cons hslot hrest =>
          rw [List.cons_append, walkList, longNameBody_slot hn hm hslot]
          exact walkList_set hn rest (Nat.le_of_succ_le hm) hrest

end

theorem walkList_leave {state : ℤ × List Wchar} {e : FatDirent} (h : e.attr ≠ 0x0F)
    (es : List FatDirent) :
    walkList longNameBody state (e :: es) = .ok (.here (state, e) es) := by
  rw [walkList, longNameBody, if_pos h]

theorem dirItem_of_diritemOf {array name rest : List Wchar} {e : FatDirent}
    (h : (diritemOf array e).2.name = name ++ 0 :: rest) (hnul : (0 : Wchar) ∉ name) :
    DirItem.of (diritemOf array e) = e.item name := by
  have htake : (name ++ 0 :: rest).takeWhile (· ≠ 0) = name := by
    rw [List.takeWhile_append_of_pos]
    · simp
    · intro c hc
      simpa using ne_of_mem_of_not_mem hc hnul
  rw [DirItem.of, h, htake]
  simp [diritemOf, FatDirent.item]

/-- **What was collected reads as the name.** -/
theorem dirItem_of_long {name : List Wchar} {e : FatDirent} {set : List FatDirent}
    (h : IsLongName name e set) (hn : slotCount name ≤ 15) :
    DirItem.of (diritemOf (partialName name 0) e) = e.item name := by
  obtain ⟨rest, hrest⟩ := exists_partialName_zero hn
  obtain ⟨c, cs, hname⟩ := List.exists_cons_of_ne_nil h.ne_nil
  have hle := (slotCount_mul_le name).1
  have hhead : c ≠ 0 := by
    rintro rfl
    exact h.noNul (hname ▸ List.mem_cons_self)
  obtain ⟨k, hk⟩ := Nat.exists_eq_add_of_lt (show name.length < 255 by omega)
  have hset : (name ++ 0 :: rest).set 255 0 = name ++ 0 :: rest.set k 0 := by
    rw [hk, List.set_append_right _ _ (by omega)]
    congr 1
    rw [show name.length + k + 1 - name.length = k + 1 by omega, List.set_cons_succ]
  refine @dirItem_of_diritemOf _ name (rest.set k 0) e ?_ h.noNul
  rw [diritemOf, hrest]
  simp only [nameSize, hset]
  rw [if_neg]
  rw [hname]
  exact hhead

/-! ## How long a name can be -/

theorem shortNameFrom_length (caseflags : UInt8) : ∀ (i : ℕ) (cs : List UInt8),
    (shortNameFrom caseflags i cs).length ≤ cs.length + if i ≤ 8 then 1 else 0
  | i, [] => by simp [shortNameFrom]
  | i, c :: cs => by
      have ih := shortNameFrom_length caseflags (i + 1) cs
      have hchar : (if c = 32 then [] else [shortChar caseflags i c]).length ≤ 1 := by
        split
        case isTrue => exact Nat.zero_le 1
        case isFalse => exact le_refl 1
      have hdot : (if i = 8 then [(46 : Wchar)] else []).length +
          (if i + 1 ≤ 8 then 1 else 0) = if i ≤ 8 then 1 else 0 := by
        rcases Nat.lt_trichotomy i 8 with hlt | rfl | hgt
        · rw [if_neg hlt.ne, if_pos (Nat.succ_le_of_lt hlt), if_pos hlt.le]
          rfl
        · rfl
        · rw [if_neg hgt.ne', if_neg (by omega), if_neg (by omega)]
          rfl
      rw [shortNameFrom]
      split
      case isTrue => exact Nat.zero_le _
      case isFalse =>
        rw [List.length_append, List.length_append, List.length_cons, ← hdot]
        omega

theorem shortNameOf_length (e : FatDirent) : (shortNameOf e).length ≤ 12 := by
  have h := shortNameFrom_length e.caseflags 0 e.shortBytes
  have hlen : e.shortBytes.length ≤ 11 := List.length_take_le _ _
  rw [if_pos (by decide)] at h
  exact h.trans (by omega)

/-- The item of a file without a long name. -/
theorem dirItem_of_short {e : FatDirent} (hnul : (0 : Wchar) ∉ shortNameOf e) :
    DirItem.of (diritemOf noName e) = e.item (shortNameOf e) := by
  have hlen := shortNameOf_length e
  obtain ⟨k, hk⟩ := Nat.exists_eq_add_of_lt
    (show (shortNameOf e).length < nameSize from hlen.trans_lt (by decide))
  have hset : noName.set (nameSize - 1) 0 = noName := by
    rw [noName, List.set_replicate_self]
  have hhead : noName.getD 0 0 = 0 := rfl
  refine @dirItem_of_diritemOf _ (shortNameOf e) (List.replicate k 0) e ?_ hnul
  simp only [diritemOf]
  rw [hset, if_pos hhead, noName, List.drop_replicate, ← List.replicate_succ]
  congr 2
  omega

/-- An array with nothing behind what 15 entries hold. -/
structure ShortEnough (array : List Wchar) : Prop where
  length : array.length = nameSize
  drop : array.drop 195 = List.replicate 61 0

theorem ShortEnough.noName : ShortEnough noName := by
  constructor
  · exact List.length_replicate
  · rw [Nawam.noName, List.drop_replicate]
    rfl

theorem fillUtf16_shortEnough {array array' : List Wchar} {i : ℕ} {e : FatDirent}
    (h : ShortEnough array) (hi : 13 * i + 13 ≤ 195)
    (hfill : fillUtf16 array i e = .ok array') : ShortEnough array' := by
  have hlen : array.length = 256 := h.length
  have hunits : e.units.length = 13 := by simp [FatDirent.units]
  rw [fillUtf16, if_pos (by rw [hlen]; omega)] at hfill
  cases hfill
  have hfront : (array.take (13 * i) ++ e.units).length = 13 * i + 13 := by
    rw [List.length_append, hunits, List.length_take_of_le (by rw [hlen]; omega)]
  obtain ⟨k, hk⟩ := Nat.exists_eq_add_of_le hi
  constructor
  · rw [List.length_append, hfront, List.length_drop, hlen, nameSize]
    omega
  · rw [hk, ← hfront, List.drop_length_add_append, List.drop_drop, hfront, ← hk]
    exact h.drop

/-- What a turn of the loop does that goes on. -/
theorem longNameBody_on {state state' : ℤ × List Wchar} {e : FatDirent}
    (h : longNameBody state e = .ok (.on state')) :
    state'.1 = e.seq ∧ fillUtf16 state.2 (slotIndex e.seq) e = .ok state'.2 := by
  obtain ⟨j, array⟩ := state
  rw [longNameBody] at h
  split at h
  case isTrue => cases h
  case isFalse =>
    split at h
    case isTrue => cases h
    case isFalse =>
      dsimp only at h
      split at h
      case isTrue => cases h
      case isFalse =>
        change (fillUtf16 array (slotIndex e.seq) e).map _ = _ at h
        cases hfill : fillUtf16 array (slotIndex e.seq) e with
        | error f =>
            rw [hfill] at h
            cases h
        | ok array' =>
            rw [hfill] at h
            cases h
            exact ⟨rfl, rfl⟩

/-- A sequence number names one of 15 pieces, or none. -/
theorem FatDirent.seq_bounds (e : FatDirent) : -1 ≤ e.seq ∧ e.seq ≤ 14 := by
  have hle : (e.id &&& 0x0F).toNat ≤ 15 := by
    rw [UInt8.toNat_and]
    exact Nat.and_le_right
  rw [FatDirent.seq]
  omega

theorem slotIndex_of_nonneg {e : FatDirent} (h : 0 ≤ e.seq) :
    slotIndex e.seq = e.seq.toNat ∧ 13 * slotIndex e.seq + 13 ≤ 195 := by
  have hle := e.seq_bounds
  have hindex : slotIndex e.seq = e.seq.toNat := by
    rw [slotIndex, if_neg (by omega)]
  exact ⟨hindex, by rw [hindex]; omega⟩

/-- For none it is outside of the array. -/
theorem fillUtf16_of_neg {array : List Wchar} {e : FatDirent} (hlen : array.length = nameSize)
    (h : e.seq < 0) : fillUtf16 array (slotIndex e.seq) e = .error .outOfBounds := by
  rw [slotIndex, if_pos (.inl h), fillUtf16, if_neg (by rw [hlen]; decide)]

/-- **No name is longer than 15 entries hold**, whatever there is. -/
theorem walkList_shortEnough {j j' : ℤ} {array array' : List Wchar} {e : FatDirent}
    {es rest : List FatDirent} (h : ShortEnough array)
    (hwalk : walkList longNameBody (j, array) es = .ok (.here ((j', array'), e) rest)) :
    ShortEnough array' := by
  refine walkList_invariant (I := fun state => ShortEnough state.2) ?_ h hwalk
  intro state e state' hstate hbody
  obtain ⟨-, hfill⟩ := longNameBody_on hbody
  by_cases hneg : e.seq < 0
  · rw [fillUtf16_of_neg hstate.length hneg] at hfill
    cases hfill
  · exact fillUtf16_shortEnough hstate (slotIndex_of_nonneg (not_lt.mp hneg)).2 hfill

theorem takeWhile_length_le {array : List Wchar} {n m : ℕ}
    (h : array.drop n = List.replicate m 0) :
    (array.takeWhile (· ≠ 0)).length ≤ n := by
  have hsplit : array = array.take n ++ List.replicate m 0 := by
    rw [← h, List.take_append_drop]
  have hstop : (List.replicate m (0 : Wchar)).takeWhile (· ≠ 0) = [] := by
    cases m with
    | zero => rfl
    | succ m => simp [List.replicate_succ]
  rw [hsplit, List.takeWhile_append, hstop]
  split
  case isTrue =>
    rw [List.append_nil]
    exact List.length_take_le n array
  case isFalse =>
    exact (List.takeWhile_sublist _).length_le.trans (List.length_take_le n array)

theorem diritemOf_name_length {array : List Wchar} (h : ShortEnough array) (e : FatDirent) :
    ((diritemOf array e).2.name.takeWhile (· ≠ 0)).length ≤ 195 := by
  have hdrop : (array.set (nameSize - 1) 0).drop 195 = List.replicate 61 0 := by
    rw [List.drop_set, if_neg (by decide), h.drop, List.set_replicate_self]
  simp only [diritemOf]
  split
  case isTrue =>
    refine takeWhile_length_le (m := 61) ?_
    obtain ⟨k, hk⟩ := Nat.exists_eq_add_of_le
      (show (shortNameOf e).length ≤ 195 from (shortNameOf_length e).trans (by decide))
    conv_lhs => rw [hk]
    rw [List.drop_length_add_append, List.drop_drop, ← hk]
    exact hdrop
  case isFalse => exact takeWhile_length_le hdrop

end Nawam
