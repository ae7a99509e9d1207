import Nawam.Parser.FatNames
import Mathlib.Algebra.Order.BigOperators.Group.List
import Mathlib.Algebra.Order.Group.Nat

/-!
# What libfat lists

A call on the entries of a record does what is due, as far as the record is
supported: a record that is not listed is passed over (`dumpEntries_ignored`),
and one that is gives its item (`listEntries_record`). No name that it yields is
longer than 15 entries hold, and no start cluster is negative
(`listEntries_bounds`); so a directory with such a file is never listed right,
and for all others the items can be counted off against the records.
`libfatDumpdir_lists_iff` puts this together.
-/

namespace Nawam

variable {e : FatDirent} {es rest : List FatDirent}

/-! ## One call -/

theorem walkList_ignored : ∀ es : List FatDirent,
    walkList ignoredBody () es =
      match es.dropWhile FatDirent.isIgnored with
      | [] => .ok (.stop (-1))
      | e :: rest => .ok (.here ((), e) rest)
  | [] => rfl
  | e :: es => by
      cases h : e.isIgnored with
      | true =>
          rw [walkList, ignoredBody, h, List.dropWhile_cons_of_pos h]
          exact walkList_ignored es
      | false =>
          rw [walkList, ignoredBody, h, List.dropWhile_cons_of_neg (by simp [h])]
          rfl

theorem dumpEntries_ignored (h : e.isIgnored = true) (es : List FatDirent) :
    dumpEntries (e :: es) = dumpEntries es := by
  rw [dumpEntries, dumpEntries, walkList_ignored, walkList_ignored,
    List.dropWhile_cons_of_pos h]

/-- The call for what has been collected. -/
def itemBehind (state : ℤ × List Wchar) (es : List FatDirent) :
    C (Reached (Int32 × LibfatDiritem) (List FatDirent)) :=
  Reached.bind (walkList longNameBody state es)
    fun ((_, name), dep) es => .ok (.here (diritemOf name dep) es)

theorem dumpEntries_used (h : e.isIgnored = false) (hid : e.id ≠ 0) (es : List FatDirent) :
    dumpEntries (e :: es) = itemBehind (-1, noName) (e :: es) := by
  rw [dumpEntries, walkList_ignored, List.dropWhile_cons_of_neg (by simp [h])]
  exact if_neg hid

theorem itemBehind_leave {state : ℤ × List Wchar} (h : e.attr ≠ 0x0F) (es : List FatDirent) :
    itemBehind state (e :: es) = .ok (.here (diritemOf state.2 e) es) := by
  rw [itemBehind, walkList_leave h]
  rfl

theorem listEntries_congr (h : dumpEntries es = dumpEntries rest) :
    listEntries es = listEntries rest := by
  match hdump : dumpEntries rest with
  | .error f => rw [listEntries_error hdump, listEntries_error (h.trans hdump)]
  | .ok (.stop code) => rw [listEntries_stop hdump, listEntries_stop (h.trans hdump)]
  | .ok (.here call es') => rw [listEntries_here hdump, listEntries_here (h.trans hdump)]

theorem listEntries_ignored (h : e.isIgnored = true) (es : List FatDirent) :
    listEntries (e :: es) = listEntries es :=
  listEntries_congr (dumpEntries_ignored h es)

/-! ## Start clusters -/

/-- A start cluster is returned as it is, or it is negative. -/
theorem toInt32_neg_iff (x : UInt32) : x.toInt32 < 0 ↔ 0x80000000 ≤ x := by
  have hint : x.toInt32.toInt = x.toBitVec.toInt := rfl
  have hnat : x.toBitVec.toNat = x.toNat := rfl
  have hlt := x.toNat_lt
  rw [Int32.lt_iff_toInt_lt, UInt32.le_iff_toNat_le, hint, BitVec.toInt_eq_toNat_cond, hnat]
  have hzero : (0 : Int32).toInt = 0 := rfl
  have hhalf : (0x80000000 : UInt32).toNat = 2147483648 := rfl
  rw [hzero, hhalf]
  split
  case isTrue h => exact iff_of_false (by omega) (by omega)
  case isFalse h => exact iff_of_true (by omega) (by omega)

theorem diritemOf_neg_iff (name : List Wchar) (e : FatDirent) :
    (diritemOf name e).1 < 0 ↔ 0x80000000 ≤ e.startCluster :=
  toInt32_neg_iff e.startCluster

/-- What a call lists has a name of 15 entries at most. -/
theorem dumpEntries_name {call : Int32 × LibfatDiritem}
    (h : dumpEntries es = .ok (.here call rest)) :
    (call.2.name.takeWhile (· ≠ 0)).length ≤ 195 ∧
      ∃ dep : FatDirent, call.1 = dep.startCluster.toInt32 := by
  obtain ⟨⟨⟨⟩, dep⟩, es', -, h⟩ := Reached.bind_eq_here h
  dsimp only at h
  split at h
  case isTrue => cases h
  case isFalse =>
    obtain ⟨⟨⟨j, name⟩, dep'⟩, es'', hwalk, h⟩ := Reached.bind_eq_here h
    simp only [Except.ok.injEq, Reached.here.injEq] at h
    obtain ⟨rfl, -⟩ := h
    exact ⟨diritemOf_name_length (walkList_shortEnough .noName hwalk) dep', dep', rfl⟩

/-- **Bounds of what is listed**, whatever the entries are. -/
theorem listEntries_bounds {es : List FatDirent} {items : List DirItem}
    (h : listEntries es = .ok items) :
    ∀ item ∈ items, item.name.length ≤ 195 ∧ item.cluster < 0x80000000 := by
  match hdump : dumpEntries es with
  | .error f =>
      rw [listEntries_error hdump] at h
      cases h
  | .ok (.stop code) =>
      rw [listEntries_stop hdump] at h
      cases h
      exact List.forall_mem_nil _
  | .ok (.here call rest) =>
      rw [listEntries_here hdump] at h
      split at h
      case isTrue =>
        cases h
        exact List.forall_mem_nil _
      case isFalse hneg =>
        cases hrest : listEntries rest with
        | error f =>
            rw [hrest] at h
            cases h
        | ok items' =>
            rw [hrest] at h
            cases h
            have hlt := dumpEntries_length hdump
            obtain ⟨hname, dep, hcluster⟩ := dumpEntries_name hdump
            refine List.forall_mem_cons.mpr ⟨⟨hname, ?_⟩, listEntries_bounds hrest⟩
            rw [hcluster] at hneg
            have hlow := mt (toInt32_neg_iff dep.startCluster).mpr hneg
            simpa [DirItem.of, hcluster] using hlow
termination_by es.length

/-! ## Where nothing is listed -/

def Unlisted (x : C (Reached (Int32 × LibfatDiritem) (List FatDirent))) : Prop :=
  match x with
  | .error _ => False
  | .ok (.stop _) => True
  | .ok (.here call _) => call.1 < 0

theorem listEntries_eq_nil_iff :
    listEntries es = .ok [] ↔ Unlisted (dumpEntries es) := by
  match hdump : dumpEntries es with
  | .error f =>
      rw [listEntries_error hdump]
      exact iff_of_false nofun id
  | .ok (.stop code) =>
      rw [listEntries_stop hdump]
      exact iff_of_true rfl trivial
  | .ok (.here call rest) =>
      rw [listEntries_here hdump]
      split
      case isTrue hneg => exact iff_of_true rfl hneg
      case isFalse hneg =>
        refine iff_of_false (fun h => ?_) hneg
        cases hrest : listEntries rest with
        | error f =>
            rw [hrest] at h
            cases h
        | ok items =>
            rw [hrest] at h
            cases h

/-- A turn of the loop, by its sequence number. -/
theorem longNameBody_eq {j : ℤ} {name : List Wchar} :
    longNameBody (j, name) e =
      if e.attr = 0x0F ∧ (0 ≤ j ∨ e.id &&& 0xF0 = 0x40) then
        if 0 ≤ j ∧ e.seq ≠ j - 1 then .ok (.stop (-3))
        else (fillUtf16 name (slotIndex e.seq) e).map fun name => .on (e.seq, name)
      else .ok .leave := by
  by_cases hattr : e.attr = 0x0F
  · by_cases hstart : j < 0 ∧ e.id &&& 0xF0 ≠ 0x40
    · rw [longNameBody, if_neg (not_not.mpr hattr), if_pos hstart, if_neg]
      rintro ⟨-, h | h⟩
      · exact absurd hstart.1 (not_lt.mpr h)
      · exact hstart.2 h
    · have hslot : e.attr = 0x0F ∧ (0 ≤ j ∨ e.id &&& 0xF0 = 0x40) := by
        rw [not_and_or, not_lt, not_not] at hstart
        exact ⟨hattr, hstart⟩
      rw [longNameBody, if_neg (not_not.mpr hattr), if_neg hstart, if_pos hslot]
      rfl
  · rw [longNameBody, if_pos hattr, if_neg fun h => hattr h.1]

theorem unlisted_itemBehind_iff : ∀ {es : List FatDirent} {j : ℤ} {name : List Wchar},
    ShortEnough name → (Unlisted (itemBehind (j, name) es) ↔ NoItem j es)
  | [], j, name, _ => iff_of_true trivial trivial
  | e :: es, j, name, hname => by
      rw [itemBehind, walkList, longNameBody_eq, NoItem]
      by_cases hslot : e.attr = 0x0F ∧ (0 ≤ j ∨ e.id &&& 0xF0 = 0x40)
      · rw [if_pos hslot, if_pos hslot]
        by_cases hseq : 0 ≤ j ∧ e.seq ≠ j - 1
        · rw [if_pos hseq]
          exact iff_of_true trivial (.inl hseq)
        · rw [if_neg hseq]
          by_cases hneg : e.seq < 0
          · rw [fillUtf16_of_neg hname.length hneg]
            refine iff_of_false id ?_
            rintro (h | h)
            · exact hseq h
            · exact absurd hneg (not_lt.mpr h.1)
          · have hnonneg := not_lt.mp hneg
            obtain ⟨name', hfill⟩ : ∃ name', fillUtf16 name (slotIndex e.seq) e = .ok name' := by
              have hle := (slotIndex_of_nonneg hnonneg).2
              rw [fillUtf16, if_pos (by rw [hname.length, nameSize]; omega)]
              exact ⟨_, rfl⟩
            have hname' :=
              fillUtf16_shortEnough hname (slotIndex_of_nonneg hnonneg).2 hfill
            rw [hfill, or_iff_right hseq, and_iff_right hnonneg]
            exact unlisted_itemBehind_iff hname'
      · rw [if_neg hslot, if_neg hslot]
        exact diritemOf_neg_iff name e

/-- **Silence**: there nothing is listed. -/
theorem silent_iff : Silent es ↔ listEntries es = .ok [] := by
  rw [listEntries_eq_nil_iff, dumpEntries, walkList_ignored, Silent]
  cases hdrop : es.dropWhile FatDirent.isIgnored with
  | nil => exact iff_of_true nofun trivial
  | cons e rest =>
      have hall : (∀ e' rest', e :: rest = e' :: rest' →
          e'.id = 0 ∨ NoItem (-1) (e' :: rest')) ↔ (e.id = 0 ∨ NoItem (-1) (e :: rest)) := by
        refine ⟨fun h => h e rest rfl, ?_⟩
        rintro h _ _ ⟨⟩
        exact h
      rw [hall]
      by_cases hid : e.id = 0
      · refine iff_of_true (.inl hid) ?_
        show Unlisted (if e.id = 0 then _ else _)
        rw [if_pos hid]
        trivial
      · rw [or_iff_right hid, ← unlisted_itemBehind_iff .noName]
        show Unlisted (itemBehind (-1, noName) (e :: rest)) ↔
          Unlisted (if e.id = 0 then _ else itemBehind (-1, noName) (e :: rest))
        rw [if_neg hid]

/-! ## Records -/

namespace IsFile

variable (h : IsFile e)
include h

theorem id_mem : e.id ∈ e.shortBytes := by
  obtain ⟨c, cs, rfl⟩ : ∃ c cs, e = c :: cs :=
    List.exists_cons_of_ne_nil (List.ne_nil_of_length_pos (by rw [h.length]; decide))
  exact List.mem_cons_self

theorem not_ignored : e.isIgnored = false := by
  have hattr : e.attr ≠ 0x08 := fun heq => absurd h.notLabel (by rw [heq]; decide)
  have hdot : e.id ≠ 46 := (h.chars e.id h.id_mem).2
  simp [FatDirent.isIgnored, hattr, hdot, h.used.2]

theorem attr_ne : e.attr ≠ 0x0F := fun heq => absurd h.notLabel (by rw [heq]; decide)

theorem nul_not_mem : (0 : Wchar) ∉ shortNameOf e := by
  have hmap {bs : List UInt8} {lower : Prop} [Decidable lower] (hbs : ∀ c ∈ bs, c ≠ 0) :
      (0 : Wchar) ∉ bs.map (lowerIf lower) := by
    rw [List.mem_map]
    rintro ⟨c, hc, hzero⟩
    have hne := hbs c hc
    revert hzero hne
    unfold lowerIf
    split
    case isTrue hlower =>
      have hletter : IsCapital c → c.toUInt16 + 0x20 ≠ 0 :=
        forall_byte (p := fun c => IsCapital c → c.toUInt16 + 0x20 ≠ 0) (by decide +kernel) c
      exact fun hzero _ => hletter hlower.2 hzero
    case isFalse =>
      have hchar : c.toUInt16 = 0 → c = 0 :=
        forall_byte (p := fun c => c.toUInt16 = 0 → c = 0) (by decide +kernel) c
      exact fun hzero hne => hne (hchar hzero)
  rw [shortNameOf_eq h.length, List.mem_append, not_or]
  constructor
  · refine hmap fun c hc => (h.chars c ?_).1
    exact List.mem_of_mem_take (List.mem_filter.mp hc).1
  · split
    case isTrue => exact List.not_mem_nil
    case isFalse =>
      rw [List.mem_cons, not_or]
      refine ⟨by decide, hmap fun c hc => (h.chars c ?_).1⟩
      exact List.mem_of_mem_drop ((List.takeWhile_sublist _).subset hc)

end IsFile

/-- What is listed for a record, if its name is not too long and its start cluster
not negative. -/
def DirRecord.listed : DirRecord → List DirItem
  | .deleted _ => []
  | .label e => if e.isIgnored then [] else [DirItem.of (diritemOf noName e)]
  | .dots _ => []
  | .short e => [e.item (shortNameOf e)]
  | .long name _ e => [e.item name]

/-- A call that lists an item, and what comes behind. -/
theorem listEntries_item {name : List Wchar} (hcluster : e.startCluster < 0x80000000)
    (h : dumpEntries es = .ok (.here (diritemOf name e) rest)) :
    listEntries es = (listEntries rest).map ([DirItem.of (diritemOf name e)] ++ ·) := by
  rw [listEntries_here h, if_neg]
  · rfl
  · rw [diritemOf_neg_iff]
    exact UInt32.not_le.mpr hcluster

theorem isIgnored_dots (h : (DirRecord.dots e).Valid) : e.isIgnored = true := by
  have hget (i : ℕ) (hi : i < 11) : e.getD i 0 = e.shortBytes.getD i 0 := by
    rw [FatDirent.shortBytes, List.getD_eq_getElem?_getD, List.getD_eq_getElem?_getD,
      List.getElem?_take_of_lt hi]
  rw [FatDirent.isIgnored, FatDirent.id, hget 0 (by decide), hget 1 (by decide),
    hget 2 (by decide)]
  rcases h with h | h
  · rw [h]
    simp +decide
  · rw [h]
    simp +decide

/-- **A long name is listed** if 15 entries hold it. -/
theorem dumpEntries_long {name : List Wchar} {set : List FatDirent} (hfile : IsFile e)
    (h : IsLongName name e set) (hn : slotCount name ≤ 15) (es : List FatDirent) :
    dumpEntries (set ++ e :: es) = .ok (.here (diritemOf (partialName name 0) e) es) := by
  have hpos : 0 < slotCount name := by
    have hlen := List.length_pos_of_ne_nil h.ne_nil
    rw [slotCount]
    omega
  obtain ⟨k, hk⟩ := Nat.exists_eq_succ_of_ne_zero hpos.ne'
  have hslots := h.slots
  have hwalk := walkList_set hn (e :: es) (le_refl _) hslots
  rw [nameState, if_pos rfl, partialName_slotCount hn] at hwalk
  rw [hk, List.range_succ, List.reverse_append] at hslots
  cases hslots with
  | @cons _ slot _ set hslot _ =>
      have hid : slot.id = UInt8.ofNat (k + 1) ||| 0x40 := by
        rw [hslot.id, if_pos hk.symm]
      obtain ⟨-, -, -, hdeleted, hdot, hfree⟩ := slotId_facts k (by omega)
      rw [← hid] at hdeleted hdot hfree
      have hignored : slot.isIgnored = false := by
        simp [FatDirent.isIgnored, hslot.attr, hdeleted, hdot]
      rw [List.cons_append, dumpEntries_used hignored hfree]
      show Reached.bind (walkList longNameBody (-1, noName) (slot :: set ++ e :: es)) _ = _
      rw [hwalk, walkList_leave hfile.attr_ne]
      rfl

theorem slotCount_le_iff {name : List Wchar} : slotCount name ≤ 15 ↔ name.length ≤ 195 := by
  rw [slotCount]
  omega

/-- **What is listed for a record** is put in front of what comes behind it. -/
theorem listEntries_record {r : DirRecord} (hvalid : r.Valid)
    (hname : ∀ name set e, r = .long name set e → name.length ≤ 195)
    (hcluster : ∀ item ∈ r.items, item.cluster < 0x80000000) (es : List FatDirent) :
    listEntries (r.entries ++ es) = (listEntries es).map (r.listed ++ ·) := by
  have hnone : (listEntries es).map (([] : List DirItem) ++ ·) = listEntries es := by
    cases listEntries es with
    | error f => rfl
    | ok items => rfl
  match r, hvalid with
  | .deleted e, hvalid =>
      have hignored : e.isIgnored = true := by
        simp [FatDirent.isIgnored, show e.id = 0xe5 from hvalid]
      exact (listEntries_ignored hignored es).trans hnone.symm
  | .dots e, hvalid => exact (listEntries_ignored (isIgnored_dots hvalid) es).trans hnone.symm
  | .label e, ⟨⟨hfree, _⟩, ⟨_, hlong⟩, hzero⟩ =>
      cases hignored : e.isIgnored with
      | true =>
          rw [DirRecord.listed, if_pos hignored, hnone]
          exact listEntries_ignored hignored es
      | false =>
          rw [DirRecord.listed, if_neg (by simp [hignored])]
          refine listEntries_item (by rw [hzero]; decide) ?_
          show dumpEntries (e :: es) = _
          rw [dumpEntries_used hignored hfree, itemBehind_leave hlong]
  | .short e, hvalid =>
      have hlow : e.startCluster < 0x80000000 :=
        hcluster (e.item e.shortName) List.mem_cons_self
      have hdump : dumpEntries (e :: es) = .ok (.here (diritemOf noName e) es) := by
        rw [dumpEntries_used hvalid.not_ignored hvalid.used.1,
          itemBehind_leave hvalid.attr_ne]
      rw [DirRecord.listed, ← dirItem_of_short hvalid.nul_not_mem]
      exact listEntries_item hlow hdump
  | .long name set e, ⟨hfile, hset⟩ =>
      have hlow : e.startCluster < 0x80000000 := hcluster (e.item name) List.mem_cons_self
      have hn := slotCount_le_iff.mpr (hname name set e rfl)
      have hdump := dumpEntries_long hfile hset hn es
      rw [DirRecord.listed, DirRecord.entries, List.append_assoc,
        ← dirItem_of_long hset hn]
      exact listEntries_item hlow hdump

/-! ## Directories -/

/-- Lists put together of as much or more, piece by piece, are the same only
piece by piece. -/
theorem flatMap_append_eq {α β : Type} {f g : α → List β} {tail : List β} :
    ∀ {l : List α}, (∀ a ∈ l, (g a).length ≤ (f a).length) →
      l.flatMap f ++ tail = l.flatMap g → tail = [] ∧ ∀ a ∈ l, f a = g a
  | [], _, heq => ⟨heq, List.forall_mem_nil _⟩
  | a :: l, hle, heq => by
      obtain ⟨hhead, hrest⟩ := List.forall_mem_cons.mp hle
      have hsum : (l.flatMap g).length ≤ (l.flatMap f).length := by
        rw [List.length_flatMap, List.length_flatMap]
        exact List.sum_le_sum hrest
      rw [List.flatMap_cons, List.flatMap_cons, List.append_assoc] at heq
      have hlen := congrArg List.length heq
      rw [List.length_append, List.length_append, List.length_append] at hlen
      obtain ⟨heq, heqs⟩ := List.append_inj heq (by omega)
      obtain ⟨htail, hall⟩ := flatMap_append_eq hrest heqs
      exact ⟨htail, List.forall_mem_cons.mpr ⟨heq, hall⟩⟩

theorem listEntries_records (tail : List FatDirent) : ∀ {records : List DirRecord},
    (∀ r ∈ records, r.Valid) →
    (∀ name set e, .long name set e ∈ records → name.length ≤ 195) →
    (∀ item ∈ records.flatMap DirRecord.items, item.cluster < 0x80000000) →
    listEntries (records.flatMap DirRecord.entries ++ tail) =
      (listEntries tail).map (records.flatMap DirRecord.listed ++ ·)
  | [], _, _, _ => by
      show listEntries tail = _
      cases listEntries tail with
      | error f => rfl
      | ok items => rfl
  | r :: records, hvalid, hname, hcluster => by
      obtain ⟨hvalid, hvalids⟩ := List.forall_mem_cons.mp hvalid
      rw [List.flatMap_cons] at hcluster
      obtain ⟨hcluster, hclusters⟩ := List.forall_mem_append.mp hcluster
      have ih := listEntries_records tail hvalids
        (fun name set e h => hname name set e (List.mem_cons_of_mem r h)) hclusters
      rw [List.flatMap_cons, List.append_assoc, listEntries_record hvalid
        (fun name set e h => hname name set e (h ▸ List.mem_cons_self)) hcluster, ih]
      cases listEntries tail with
      | error f => rfl
      | ok items =>
          show Except.ok (r.listed ++ (records.flatMap DirRecord.listed ++ items)) = _
          rw [← List.append_assoc, ← List.flatMap_cons]
          rfl

theorem DirRecord.items_length_le (r : DirRecord) : r.items.length ≤ r.listed.length := by
  cases r with
  | deleted e => exact le_refl _
  | label e => exact Nat.zero_le _
  | dots e => exact le_refl _
  | short e => exact le_refl _
  | long name set e => exact le_refl _

theorem DirRecord.listed_eq_iff {r : DirRecord} (hvalid : r.Valid) :
    r.listed = r.items ↔
      (∀ e, r = .label e → e.isIgnored = true) ∧ ∀ e, r = .short e → IsPlainShort e := by
  match r, hvalid with
  | .deleted e, _ => exact iff_of_true rfl ⟨nofun, nofun⟩
  | .dots e, _ => exact iff_of_true rfl ⟨nofun, nofun⟩
  | .long name set e, _ => exact iff_of_true rfl ⟨nofun, nofun⟩
  | .label e, _ =>
      have hlisted : (DirRecord.label e).listed = (DirRecord.label e).items ↔
          e.isIgnored = true := by
        show (if e.isIgnored then ([] : List DirItem) else _) = [] ↔ _
        split
        case isTrue h => exact iff_of_true rfl h
        case isFalse h => exact iff_of_false (List.cons_ne_nil _ _) h
      rw [hlisted]
      refine ⟨fun h => ⟨?_, nofun⟩, fun h => h.1 e rfl⟩
      rintro _ ⟨⟩
      exact h
  | .short e, hvalid =>
      have hlisted : (DirRecord.short e).listed = (DirRecord.short e).items ↔
          IsPlainShort e := by
        rw [← shortNameOf_eq_iff hvalid.length]
        show [e.item (shortNameOf e)] = [e.item e.shortName] ↔ _
        refine ⟨fun h => congrArg DirItem.name (List.cons.inj h).1, fun h => ?_⟩
        rw [h]
      rw [hlisted]
      refine ⟨fun h => ⟨nofun, ?_⟩, fun h => h.2 e rfl⟩
      rintro _ ⟨⟩
      exact h

/-- **The entries of a supported directory give its listing**, and those of no
other directory. -/
theorem FatDirectory.listEntries_iff (dir : FatDirectory es) :
    listEntries es = .ok dir.listing ↔ dir.Supported := by
  have hrecords := listEntries_records dir.tail dir.valid
  rw [← dir.entries] at hrecords
  constructor
  · intro h
    have hbounds := listEntries_bounds h
    have hname : ∀ name set e, .long name set e ∈ dir.records → name.length ≤ 195 := by
      intro name set e hr
      exact (hbounds (e.item name)
        (List.mem_flatMap.mpr ⟨.long name set e, hr, List.mem_cons_self⟩)).1
    have hcluster : ∀ item ∈ dir.listing, item.cluster < 0x80000000 :=
      fun item hitem => (hbounds item hitem).2
    rw [hrecords hname hcluster] at h
    cases htail : listEntries dir.tail with
    | error f =>
        rw [htail] at h
        cases h
    | ok items =>
        rw [htail] at h
        obtain ⟨rfl, hall⟩ := flatMap_append_eq
          (fun r _ => r.items_length_le) (Except.ok.inj h)
        have hsame := fun r hr => (DirRecord.listed_eq_iff (dir.valid r hr)).mp (hall r hr)
        exact ⟨fun e he => (hsame _ he).1 e rfl, hname, hcluster,
          fun e he => (hsame _ he).2 e rfl, silent_iff.mpr htail⟩
  · intro h
    have hsame : dir.records.flatMap DirRecord.listed = dir.listing := by
      refine List.flatMap_congr fun r hr => (DirRecord.listed_eq_iff (dir.valid r hr)).mpr ?_
      exact ⟨fun e he => h.labels e (he ▸ hr), fun e he => h.shortNames e (he ▸ hr)⟩
    rw [hrecords h.longNames h.clusters, silent_iff.mp h.tail, hsame]
    show Except.ok (dir.listing ++ []) = _
    rw [List.append_nil]

/-- What the calls yield is what the entries give. -/
theorem lists_iff {fs : LibfatFilesystem} {cluster : Int32} {contents : List (List UInt8)}
    (h : fs.DirChain cluster contents) {items : List DirItem} :
    Lists fs cluster items ↔ listEntries (contents.flatMap direntsOf) = .ok items := by
  constructor
  · rintro ⟨N, hN⟩
    have hlist := hN (N + (contents.flatMap direntsOf).length)
      (N + (contents.flatMap direntsOf).length + 1) (by omega) (by omega)
    rwa [listDir_eq h (by omega) (by omega)] at hlist
  · intro hlist
    refine ⟨(contents.flatMap direntsOf).length + 1, fun fuel n hfuel hn => ?_⟩
    rw [listDir_eq h (by omega) (by omega), hlist]

/-- **`libfat_dumpdir` lists a directory if and only if it is a supported one.** -/
theorem libfatDumpdir_lists_iff {fs : LibfatFilesystem} {cluster : Int32}
    {contents : List (List UInt8)} (h : fs.DirChain cluster contents)
    (dir : FatDirectory (contents.flatMap direntsOf)) :
    Lists fs cluster dir.listing ↔ dir.Supported :=
  (lists_iff h).trans dir.listEntries_iff

/-! ## A root directory of one sector -/

theorem rootOnly_shift : 9 ≤ 9 := le_refl 9

/-- A FAT16 file system whose root directory is one sector. -/
def rootOnly (sector : List UInt8) (h : sector.length = 512) : LibfatFilesystem where
  read n := if n = 1 then some sector else none
  sectorShift := 9
  fatType := .fat16
  clustsize := 1
  clustshift := 0
  endcluster := 100
  rootcluster := 0
  fat := 0
  rootdir := 1
  data := 2
  shift_le := rootOnly_shift
  read_length n bs hread := by
    split at hread
    case isTrue =>
      cases hread
      exact h
    case isFalse => cases hread

theorem rootOnly_chain (sector : List UInt8) (h : sector.length = 512) :
    (rootOnly sector h).DirChain 0 [sector] where
  sector := by
    show LibfatFilesystem.IsSector 1
    decide
  chain := .last rfl rfl

def fileEntry (name : List UInt8) (caseflags clustlo : UInt8) : FatDirent :=
  name ++ (0x20 :: caseflags :: List.replicate 13 0) ++ [clustlo, 0, 5, 0, 0, 0]

def labelEntry : FatDirent := Ascii.text "NAWAM      " ++ 8 :: List.replicate 20 0

/-- The one entry for the long name `a.conf`. -/
def confSlot : FatDirent :=
  [0x41, 97, 0, 46, 0, 99, 0, 111, 0, 110, 0, 0x0F, 0,
    FatDirent.checksum (fileEntry (Ascii.text "A~1     CON") 0 3),
    102, 0, 0, 0, 255, 255, 255, 255, 255, 255, 255, 255, 0, 0, 255, 255, 255, 255]

/-- A volume label, and `a.conf`. -/
def confSector : List UInt8 :=
  labelEntry ++ (confSlot ++ fileEntry (Ascii.text "A~1     CON") 0 3) ++
    List.replicate 416 0

def confDirectory : FatDirectory ([confSector].flatMap direntsOf) where
  records := [.label labelEntry,
    .long [97, 46, 99, 111, 110, 102] [confSlot] (fileEntry (Ascii.text "A~1     CON") 0 3)]
  tail := List.replicate 13 (List.replicate 32 0)
  valid := by
    have hfile : IsFile (fileEntry (Ascii.text "A~1     CON") 0 3) :=
      ⟨by decide, by decide, by decide +kernel, by decide⟩
    have hslot : IsSlot [97, 46, 99, 111, 110, 102]
        (fileEntry (Ascii.text "A~1     CON") 0 3) 0 confSlot :=
      ⟨by decide, by decide, by decide, by decide, by decide, by decide⟩
    have hset : IsLongName [97, 46, 99, 111, 110, 102]
        (fileEntry (Ascii.text "A~1     CON") 0 3) [confSlot] :=
      ⟨by decide, by decide, by decide, .cons hslot .nil⟩
    have hlabel : (DirRecord.label labelEntry).Valid :=
      ⟨by decide, by decide, by decide⟩
    exact List.forall_mem_cons.mpr ⟨hlabel, List.forall_mem_singleton.mpr ⟨hfile, hset⟩⟩
  ends := by
    rintro e ⟨⟩
    rfl
  entries := by decide +kernel

theorem confDirectory_supported : confDirectory.Supported where
  labels e he := by
    rcases List.mem_cons.mp he with heq | he
    · cases heq
      decide
    · cases List.mem_singleton.mp he
  longNames name set e he := by
    rcases List.mem_cons.mp he with heq | he
    · cases heq
    · cases List.mem_singleton.mp he
      decide
  clusters := by decide
  shortNames e he := by
    rcases List.mem_cons.mp he with heq | he
    · cases heq
    · cases List.mem_singleton.mp he
  tail e rest h := by
    have hhead : (confDirectory.tail.dropWhile FatDirent.isIgnored).head? =
        some (List.replicate 32 0) := by decide
    rw [h] at hhead
    cases hhead
    exact .inl rfl

/-- The file is listed under its long name, and the label is not. -/
theorem libfatDumpdir_lists_iff_conf :
    Lists (rootOnly confSector (by decide +kernel)) 0
      [⟨[97, 46, 99, 111, 110, 102], 5, 0x20, 3⟩] :=
  (libfatDumpdir_lists_iff (rootOnly_chain confSector (by decide +kernel))
    confDirectory).mpr confDirectory_supported

/-- `readme.txt`, in lower case by its case flags. -/
def readmeSector : List UInt8 :=
  fileEntry (Ascii.text "README  TXT") 0x18 3 ++ List.replicate 480 0

def readmeDirectory : FatDirectory ([readmeSector].flatMap direntsOf) where
  records := [.short (fileEntry (Ascii.text "README  TXT") 0x18 3)]
  tail := List.replicate 15 (List.replicate 32 0)
  valid := by
    have hfile : IsFile (fileEntry (Ascii.text "README  TXT") 0x18 3) :=
      ⟨by decide, by decide, by decide +kernel, by decide⟩
    exact List.forall_mem_singleton.mpr hfile
  ends := by
    rintro e ⟨⟩
    rfl
  entries := by decide +kernel

/-- The bits of the case flags are not the ones that are looked at. -/
theorem libfatDumpdir_ignores_case :
    readmeDirectory.listing =
        [⟨(Ascii.text "readme.txt").map (·.toUInt16), 5, 0x20, 3⟩] ∧
      ¬Lists (rootOnly readmeSector (by decide +kernel)) 0 readmeDirectory.listing := by
  refine ⟨by decide, fun h => ?_⟩
  rw [lists_iff (rootOnly_chain readmeSector (by decide +kernel)),
    readmeDirectory.listEntries_iff] at h
  have hcase := (h.shortNames _ List.mem_cons_self).baseCase 82 (by decide) (by decide)
  exact absurd hcase (by decide)

end Nawam
