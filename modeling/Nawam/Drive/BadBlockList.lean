import Nawam.Base.HeapBlock
import Nawam.Base.Insertion
import Nawam.Drive.BadBlocks

/-!
# The list of bad blocks in memory

`bb_u64_list_add` and `bb_u64_list_find` of `badblocks.c` on the array of the list, which
grows by 100 entries when it is full. On the entries in use they are `bbListAdd` and
`bbListFind`, whatever the heap answers; so where it has memory the list is a sorted set of the
blocks that were added.

An `int` that overflows wraps. An array of a negative size is one of more bytes than there
are addresses, and there is no memory for it.
-/

namespace Nawam

/-! ## Source -/

def wrapInt (x : ℤ) : ℤ := x.bmod (2 ^ 32)

/-- `size * sizeof(uint64_t)`, a `size_t` -/
def arrayBytes (size : ℤ) : ℕ := (size % 2 ^ 64).toNat * 8 % 2 ^ 64

/-- `bb_struct_u64_list`, with the array. `magic` says that its magic is the right one. -/
structure BbStruct where
  magic : Bool
  num : ℕ
  size : ℤ
  list : List ℕ

inductive Errcode where
  | ok
  | noMemory
  | badMagic
  deriving DecidableEq

/-- `bb_badblocks_list_create`, unless there is no memory -/
def bbBadblocksListCreate (answer : HeapAnswer ℕ) (size : ℤ) : Option BbStruct :=
  let size := if wrapInt size ≠ 0 then wrapInt size else 10
  if answer.grants (arrayBytes size) then
    some ⟨true, 0, size, List.replicate (arrayBytes size / 8) 0⟩
  else none

/-- `memset(&list[i], 0, n * sizeof(uint64_t))` -/
def clearEntries (list : List ℕ) (i : ℤ) (n : ℕ) : C (List ℕ) :=
  if 0 ≤ i ∧ i.toNat + n ≤ list.length then
    .ok (list.take i.toNat ++ (List.replicate n 0 ++ list.drop (i.toNat + n)))
  else .error .outOfBounds

/-- The array is made larger if it is full; none where there is no memory. -/
def BbStruct.grow (answer : HeapAnswer ℕ) (bb : BbStruct) : C (Option BbStruct) :=
  if bb.size ≤ bb.num then
    let size := wrapInt (bb.size + 100)
    if answer.grants (arrayBytes size) then do
      let list := reallocBlock answer bb.list (arrayBytes size / 8)
      let list ← clearEntries list (size - 100) 100
      .ok (some { bb with size, list })
    else .ok none
  else .ok (some bb)

/-- The search for the place of `blk`, `left` turns before its end; none where it is there. -/
def placeSearch (list : List ℕ) (blk : ℕ) : (left i : ℕ) → C (Option ℕ)
  | 0, i => .ok (some i)
  | left + 1, i => do
      let b ← entry list i
      if b = blk then .ok none
      else if blk < b then .ok (some i)
      else placeSearch list blk left (i + 1)

/-- `bb_u64_list_add`, once there is room -/
def BbStruct.put (bb : BbStruct) (blk : ℕ) : C BbStruct :=
  if bb.num = 0 then do
    let list ← storeEntry bb.list bb.num blk
    .ok { bb with num := bb.num + 1, list }
  else do
    let last ← entry bb.list (bb.num - 1)
    if last = blk then .ok bb
    -- appending to the end of the list
    else if last < blk then do
      let list ← storeEntry bb.list bb.num blk
      .ok { bb with num := bb.num + 1, list }
    else do
      match ← placeSearch bb.list blk bb.num 0 with
      | none => .ok bb
      | some j => do
          let list ← shiftUp j (bb.num - j) bb.list
          let list ← storeEntry list j blk
          .ok { bb with num := bb.num + 1, list }

def BbStruct.add (answer : HeapAnswer ℕ) (bb : BbStruct) (blk : ℕ) : C (Errcode × BbStruct) :=
  if ¬bb.magic then .ok (.badMagic, bb)
  else do
    match ← bb.grow answer with
    | none => .ok (.noMemory, bb)
    | some bb => do
        let bb ← bb.put blk
        .ok (.ok, bb)

def findSearch (list : List ℕ) (blk : ℕ) : (fuel low high : ℕ) → C (Option ℕ)
  | 0, _, _ => .error .outOfFuel
  | fuel + 1, low, high =>
      if low < high then
        let mid := (low + high) % 2 ^ 32 / 2
        if mid = low ∨ mid = high then .ok none
        else do
          let b ← entry list mid
          if blk = b then .ok (some mid)
          else if blk < b then findSearch list blk fuel low mid
          else findSearch list blk fuel mid high
      else .ok none

/-- `bb_u64_list_find`; none is -1. -/
def BbStruct.find (bb : BbStruct) (blk : ℕ) : C (Option ℕ) :=
  if ¬bb.magic then .ok none
  else if bb.num = 0 then .ok none
  else do
    let high := bb.num - 1
    let first ← entry bb.list 0
    if blk = first then .ok (some 0)
    else do
      let last ← entry bb.list high
      if blk = last then .ok (some high)
      else findSearch bb.list blk (bb.num + 1) 0 high

/-- One call of `bb_u64_list_add` after the other: what they return, and the list -/
def bbRun : List (HeapAnswer ℕ × ℕ) → BbStruct → C (List Errcode × BbStruct)
  | [], bb => .ok ([], bb)
  | (answer, blk) :: calls, bb => do
      let (err, bb) ← bb.add answer blk
      let (errs, bb) ← bbRun calls bb
      .ok (err :: errs, bb)

/-! ## Sorted lists -/

section

variable {list : List ℕ} {blk : ℕ}

theorem placeLoop_of_mem : ∀ {list : List ℕ} (i : ℕ), list.Pairwise (· < ·) → blk ∈ list →
    placeLoop blk list i = none
  | b :: list, i, hsorted, hmem => by
      obtain ⟨hhead, htail⟩ := List.pairwise_cons.mp hsorted
      rw [placeLoop]
      by_cases heq : b = blk
      · rw [if_pos heq]
      · have hrest : blk ∈ list := List.mem_of_ne_of_mem (Ne.symm heq) hmem
        rw [if_neg heq, if_neg (Nat.lt_asymm (hhead blk hrest)), placeLoop_of_mem (i + 1) htail hrest]

theorem bbListAdd_of_mem (hsorted : list.Pairwise (· < ·)) (hmem : blk ∈ list) :
    bbListAdd list blk = list := by
  have hpos := List.length_pos_of_mem hmem
  have hle : blk ≤ list.getD (list.length - 1) 0 := by
    obtain ⟨i, hi, rfl⟩ := List.mem_iff_getElem.mp hmem
    rw [List.getElem_eq_getD 0]
    rcases Nat.lt_or_ge i (list.length - 1) with hlt | hge
    · exact (getD_lt_getD hsorted hlt (by omega)).le
    · rw [show i = list.length - 1 by omega]
  rw [bbListAdd]
  by_cases hlast : list.length ≠ 0 ∧ list.getD (list.length - 1) 0 = blk
  · rw [if_pos hlast]
  · rw [if_neg hlast, if_neg (by omega), placeLoop_of_mem 0 hsorted hmem]

/-- The list stays sorted, and has the block then. -/
theorem bbListAdd_spec (hsorted : list.Pairwise (· < ·)) :
    (bbListAdd list blk).Pairwise (· < ·) ∧ ∀ b, b ∈ bbListAdd list blk ↔ b = blk ∨ b ∈ list := by
  by_cases hmem : blk ∈ list
  · rw [bbListAdd_of_mem hsorted hmem]
    refine ⟨hsorted, fun b => ⟨Or.inr, ?_⟩⟩
    rintro (rfl | hb)
    · exact hmem
    · exact hb
  · have h := bbListAdd_added hsorted hmem
    exact ⟨h.sorted, h.mem⟩

theorem placeLoop_le : ∀ {list : List ℕ} {i j : ℕ}, placeLoop blk list i = some j →
    j ≤ i + list.length
  | [], i, j, h => by
      obtain rfl := Option.some_inj.mp h
      exact Nat.le_refl i
  | b :: list, i, j, h => by
      rw [placeLoop] at h
      rw [List.length_cons]
      split at h
      case isTrue => cases h
      case isFalse =>
          split at h
          case isTrue =>
              obtain rfl := Option.some_inj.mp h
              omega
          case isFalse =>
              have := placeLoop_le h
              omega

theorem findLoop_sound : ∀ {fuel low high i : ℕ}, high < list.length →
    findLoop list blk fuel low high = some i → list[i]? = some blk := by
  intro fuel
  induction fuel with
  | zero => exact fun _ h => nomatch h
  | succ fuel ih =>
      intro low high i hhigh h
      rw [findLoop] at h
      dsimp only at h
      split at h
      case isFalse => cases h
      case isTrue hlt =>
          split at h
          case isTrue => cases h
          case isFalse hmid =>
              split at h
              case isTrue hfound =>
                  obtain rfl := Option.some_inj.mp h
                  rw [hfound, List.getD_eq_getElem?_getD, List.getElem?_eq_getElem (by omega)]
                  rfl
              case isFalse =>
                  split at h
                  case isTrue => exact ih (by omega) h
                  case isFalse => exact ih hhigh h

theorem bbListFind_sound {i : ℕ} (h : bbListFind list blk = some i) : list[i]? = some blk := by
  have hat {i : ℕ} (hi : i < list.length) (hblk : blk = list.getD i 0) : list[i]? = some blk := by
    rw [hblk, List.getD_eq_getElem?_getD, List.getElem?_eq_getElem hi]
    rfl
  rw [bbListFind] at h
  dsimp only at h
  split at h
  case isTrue => cases h
  case isFalse hne =>
      split at h
      case isTrue hfirst =>
          obtain rfl := Option.some_inj.mp h
          exact hat (by omega) hfirst
      case isFalse =>
          split at h
          case isTrue hlast =>
              obtain rfl := Option.some_inj.mp h
              exact hat (by omega) hlast
          case isFalse => exact findLoop_sound (by omega) h

end

/-! ## The entries in use -/

namespace BbStruct

def used (bb : BbStruct) : List ℕ := bb.list.take bb.num

/-- The array has the size that the list says, and its first entries are a sorted list. -/
structure Valid (bb : BbStruct) : Prop where
  magic : bb.magic = true
  size_nonneg : 0 ≤ bb.size
  size_lt : bb.size < 2 ^ 31
  length_eq : (bb.list.length : ℤ) = bb.size
  num_le : (bb.num : ℤ) ≤ bb.size
  sorted : bb.used.Pairwise (· < ·)

variable {bb : BbStruct} {answer : HeapAnswer ℕ} {blk : ℕ}

theorem Valid.num_le_length (h : bb.Valid) : bb.num ≤ bb.list.length := by
  have hlength := h.length_eq
  have hnum := h.num_le
  omega

theorem Valid.used_length (h : bb.Valid) : bb.used.length = bb.num := by
  rw [used, List.length_take]
  exact min_eq_left h.num_le_length

theorem used_getElem? {i : ℕ} (hi : i < bb.num) : bb.used[i]? = bb.list[i]? :=
  List.getElem?_take_of_lt hi

theorem Valid.entry_eq (h : bb.Valid) {i : ℕ} (hi : i < bb.num) :
    entry bb.list i = .ok (bb.used.getD i 0) := by
  have hlt : i < bb.list.length := lt_of_lt_of_le hi h.num_le_length
  rw [entry_of_lt hlt, List.getD_eq_getElem?_getD, used_getElem? hi, List.getElem?_eq_getElem hlt]
  rfl

end BbStruct

/-- There is memory only for a size that is not negative, and then the array has it. -/
theorem arrayBytes_eq {answer : HeapAnswer ℕ} {size : ℤ} (hmin : -2 ^ 31 ≤ size) (hmax : size < 2 ^ 31)
    (h : answer.grants (arrayBytes size) = true) :
    0 ≤ size ∧ ((arrayBytes size / 8 : ℕ) : ℤ) = size := by
  rw [HeapAnswer.grants, Bool.and_eq_true, decide_eq_true_eq, arrayBytes] at h
  rw [arrayBytes]
  omega

theorem wrapInt_mem (x : ℤ) : -2 ^ 31 ≤ wrapInt x ∧ wrapInt x < 2 ^ 31 :=
  ⟨Int.le_bmod (by decide), Int.bmod_lt (by decide)⟩

theorem bbBadblocksListCreate_valid {answer : HeapAnswer ℕ} {size : ℤ} {bb : BbStruct}
    (h : bbBadblocksListCreate answer size = some bb) : bb.Valid ∧ bb.num = 0 := by
  obtain ⟨n, hn⟩ : ∃ n, (if wrapInt size ≠ 0 then wrapInt size else 10) = n := ⟨_, rfl⟩
  rw [bbBadblocksListCreate, hn] at h
  have hbounds : -2 ^ 31 ≤ n ∧ n < 2 ^ 31 := by
    have := wrapInt_mem size
    rw [← hn]
    split <;> omega
  split at h
  case isFalse => cases h
  case isTrue hgrants =>
      cases h
      obtain ⟨hnonneg, hbytes⟩ := arrayBytes_eq hbounds.1 hbounds.2 hgrants
      refine ⟨⟨rfl, hnonneg, hbounds.2, ?_, hnonneg, List.Pairwise.nil⟩, rfl⟩
      rw [List.length_replicate]
      exact hbytes

namespace BbStruct

variable {bb : BbStruct} {answer : HeapAnswer ℕ} {blk : ℕ}

/-- Where there is memory, a full list gets more room unless its size is near the
largest `int`. -/
theorem Valid.grants_of_allocated (h : bb.Valid) (hfull : bb.size ≤ bb.num)
    (halloc : answer.allocated = true) (hnum : bb.num + 100 < 2 ^ 31) :
    answer.grants (arrayBytes (wrapInt (bb.size + 100))) = true := by
  have hle := h.num_le
  have hwrap : wrapInt (bb.size + 100) = bb.size + 100 :=
    Int.bmod_eq_of_le (by omega) (by omega)
  rw [HeapAnswer.grants, halloc, hwrap, arrayBytes, Bool.true_and, decide_eq_true_eq]
  omega

/-- Growing leaves the blocks, and there is room then. -/
theorem grow_achieves (h : bb.Valid) : Achieves (bb.grow answer) fun r =>
    (r = none → answer.allocated = true → 2 ^ 31 ≤ bb.num + 100) ∧
    ∀ bb' ∈ r, bb'.Valid ∧ bb'.used = bb.used ∧ (bb'.num : ℤ) < bb'.size := by
  have hnum := h.num_le
  rw [grow]
  refine .ite (fun hfull => ?_) (fun hroom => ?_)
  swap
  · refine .ok ⟨nofun, ?_⟩
    rintro _ ⟨⟩
    exact ⟨h, rfl, Int.lt_of_not_ge hroom⟩
  dsimp only
  refine .ite (fun hgrants => ?_) (fun hrefused => ?_)
  swap
  · refine .ok ⟨fun _ halloc => Nat.le_of_not_lt fun hnum => ?_, nofun⟩
    exact hrefused (h.grants_of_allocated hfull halloc hnum)
  have hlt := h.size_lt
  have hmin := h.size_nonneg
  have hlength := h.length_eq
  obtain ⟨hlow, hhigh⟩ := wrapInt_mem (bb.size + 100)
  obtain ⟨hnonneg, hbytes⟩ := arrayBytes_eq hlow hhigh hgrants
  have hsize : wrapInt (bb.size + 100) = bb.size + 100 := by
    have hwrap : wrapInt (bb.size + 100) % 2 ^ 32 = (bb.size + 100) % 2 ^ 32 := Int.bmod_emod
    omega
  rw [hsize] at hbytes
  have hentries : arrayBytes (bb.size + 100) / 8 = bb.list.length + 100 := by omega
  have hrealloc : reallocBlock answer bb.list (bb.list.length + 100)
      = bb.list ++ (List.range 100).map answer.garbage := by
    rw [reallocBlock_of_le answer (by omega), Nat.add_sub_cancel_left]
  have hindex : (bb.size + 100 - 100).toNat = bb.list.length := by omega
  have hall : bb.list.length + 100 = (bb.list ++ (List.range 100).map answer.garbage).length := by
    rw [List.length_append, List.length_map, List.length_range]
  have hclear : clearEntries (bb.list ++ (List.range 100).map answer.garbage)
      (bb.size + 100 - 100) 100 = .ok (bb.list ++ List.replicate 100 0) := by
    rw [clearEntries, hindex, if_pos ⟨by omega, hall.le⟩, List.take_left, hall, List.drop_length,
      List.append_nil]
  rw [hsize, hentries, hrealloc, hclear, C.ok_bind]
  refine .ok ⟨nofun, ?_⟩
  rintro _ ⟨⟩
  have hused : (bb.list ++ List.replicate 100 0).take bb.num = bb.used :=
    List.take_append_of_le_length h.num_le_length
  refine ⟨⟨h.magic, by show (0 : ℤ) ≤ bb.size + 100; omega, ?_, ?_, ?_, ?_⟩, hused, ?_⟩
  · show bb.size + 100 < 2 ^ 31
    omega
  · show ((bb.list ++ List.replicate 100 0).length : ℤ) = bb.size + 100
    rw [List.length_append, List.length_replicate]
    omega
  · show (bb.num : ℤ) ≤ bb.size + 100
    omega
  · rw [used, hused]
    exact h.sorted
  · show (bb.num : ℤ) < bb.size + 100
    omega

theorem placeSearch_eq (hnum : bb.Valid) : ∀ {back front : List ℕ}, bb.used = front ++ back →
    placeSearch bb.list blk back.length front.length = .ok (placeLoop blk back front.length) := by
  intro back
  induction back with
  | nil => exact fun _ => rfl
  | cons b back ih =>
      intro front hsplit
      have hlength := congrArg List.length hsplit
      rw [hnum.used_length, List.length_append, List.length_cons] at hlength
      have hget : bb.used.getD front.length 0 = b := by
        rw [hsplit, List.getD_eq_getElem?_getD, List.getElem?_append_right (Nat.le_refl _),
          Nat.sub_self]
        rfl
      have hnext := @ih (front ++ [b]) (by rw [hsplit, List.append_assoc]; rfl)
      rw [List.length_append, List.length_singleton] at hnext
      rw [List.length_cons, placeSearch, hnum.entry_eq (by omega), C.ok_bind, hget, placeLoop, hnext]
      split
      · rfl
      · split <;> rfl

/-- With a block that is put into the array, in the room that was made for it -/
theorem Valid.replace (h : bb.Valid) (hroom : (bb.num : ℤ) < bb.size) {list : List ℕ}
    (hlength : list.length = bb.list.length) (hsorted : (list.take (bb.num + 1)).Pairwise (· < ·)) :
    BbStruct.Valid { bb with num := bb.num + 1, list } where
  magic := h.magic
  size_nonneg := h.size_nonneg
  size_lt := h.size_lt
  length_eq := by
    rw [hlength]
    exact h.length_eq
  num_le := by
    show ((bb.num + 1 : ℕ) : ℤ) ≤ bb.size
    omega
  sorted := hsorted

/-- On the entries in use, a block is added as to a list. -/
theorem put_achieves (h : bb.Valid) (hroom : (bb.num : ℤ) < bb.size) :
    Achieves (bb.put blk) fun bb' => bb'.Valid ∧ bb'.used = bbListAdd bb.used blk := by
  have hlength := h.used_length
  have hlt : bb.num < bb.list.length := by
    have := h.length_eq
    omega
  have hadded : (bbListAdd bb.used blk).Pairwise (· < ·) := (bbListAdd_spec h.sorted).1
  -- behind the last block
  have happend : (bb.list.set bb.num blk).take (bb.num + 1) = bb.used ++ [blk] :=
    (Achieves.ok_iff.mp (shiftUp_insert (n := 0) (x := blk) (by omega) hlength
      (List.append_nil _).symm)).2
  have hend (hadd : bbListAdd bb.used blk = bb.used ++ [blk]) :
      Achieves (do
        let list ← storeEntry bb.list bb.num blk
        (.ok { bb with num := bb.num + 1, list } : C BbStruct)) fun bb' =>
          bb'.Valid ∧ bb'.used = bbListAdd bb.used blk := by
    rw [hadd] at hadded ⊢
    rw [storeEntry_of_lt hlt, C.ok_bind]
    refine .ok ⟨h.replace hroom (List.length_set ..) ?_, happend⟩
    rw [happend]
    exact hadded
  rw [put]
  refine .ite (fun hempty => ?_) (fun hne => ?_)
  · apply hend
    rw [bbListAdd, hlength]
    rw [if_neg (fun h => h.1 hempty), if_pos (Or.inl hempty)]
  have hlast : bb.used.getD (bb.num - 1) 0 = bb.used.getD (bb.used.length - 1) 0 := by
    rw [hlength]
  rw [h.entry_eq (by omega), C.ok_bind, hlast]
  refine .ite (fun heq => ?_) (fun hneq => ?_)
  · refine .ok ⟨h, ?_⟩
    rw [bbListAdd]
    rw [if_pos ⟨by omega, heq⟩]
  refine .ite (fun hless => ?_) (fun hmore => ?_)
  · apply hend
    rw [bbListAdd]
    rw [if_neg (fun h => hneq h.2), if_pos (Or.inr hless)]
  have hplace := @placeSearch_eq bb blk h bb.used [] rfl
  rw [hlength, List.length_nil] at hplace
  have hadd : bbListAdd bb.used blk = match placeLoop blk bb.used 0 with
      | none => bb.used
      | some j => bb.used.take j ++ blk :: bb.used.drop j := by
    rw [bbListAdd]
    refine (if_neg (fun h => hneq h.2)).trans ((if_neg (by omega)).trans ?_)
    cases placeLoop blk bb.used 0 <;> rfl
  rw [hadd] at hadded ⊢
  rw [hplace, C.ok_bind]
  cases hj : placeLoop blk bb.used 0 with
  | none => exact .ok ⟨h, rfl⟩
  | some j =>
      rw [hj] at hadded
      have hle : j ≤ bb.num := by
        have hbound := placeLoop_le hj
        omega
      have hfront : (bb.used.take j).length = j := by
        rw [List.length_take, hlength]
        exact min_eq_left hle
      have hsplit : bb.list.take (j + (bb.num - j)) = bb.used.take j ++ bb.used.drop j := by
        rw [Nat.add_sub_cancel' hle, List.take_append_drop]
        rfl
      have hshift := shiftUp_insert (x := blk) (by omega) hfront hsplit
      rw [Nat.add_sub_cancel' hle] at hshift
      refine .bind hshift ?_
      rintro list ⟨hlist, htake⟩
      rw [storeEntry_of_lt (by omega), C.ok_bind]
      refine .ok ⟨h.replace hroom ((List.length_set ..).trans hlist) ?_, htake⟩
      rw [htake]
      exact hadded

/-- A call adds its block, or there is no memory and it changes nothing. -/
theorem add_achieves (h : bb.Valid) : Achieves (bb.add answer blk) fun r => r.2.Valid ∧
    (r.1 = .noMemory ∧ r.2 = bb ∧ (answer.allocated = true → 2 ^ 31 ≤ bb.num + 100) ∨
      r.1 = .ok ∧ r.2.used = bbListAdd bb.used blk) := by
  rw [add]
  refine .ite (fun hmagic => absurd h.magic hmagic) (fun _ => ?_)
  refine .bind (grow_achieves h) ?_
  rintro (_ | grown) ⟨hrefused, hgrown⟩
  · exact .ok ⟨h, .inl ⟨rfl, rfl, hrefused rfl⟩⟩
  · obtain ⟨hvalid, hused, hroom⟩ := hgrown grown rfl
    refine .bind (put_achieves hvalid hroom) ?_
    rintro bb' ⟨hvalid', hput⟩
    refine .ok ⟨hvalid', .inr ⟨rfl, ?_⟩⟩
    rw [hput, hused]

theorem findSearch_eq (h : bb.Valid) : ∀ {f g low high : ℕ}, high < bb.num →
    high - low ≤ f → high - low ≤ g →
    findSearch bb.list blk (f + 1) low high = .ok (findLoop bb.used blk g low high) := by
  intro f
  induction f with
  | zero =>
      intro g low high hhigh hf hg
      rw [findSearch, if_neg (by omega)]
      cases g with
      | zero => rfl
      | succ g => rw [findLoop, if_neg (by omega)]
  | succ f ih =>
      intro g low high hhigh hf hg
      have hnum := h.num_le
      have hsize := h.size_lt
      rw [findSearch]
      by_cases hlt : low < high
      · obtain ⟨g, rfl⟩ : ∃ k, g = k + 1 := ⟨g - 1, by omega⟩
        rw [findLoop, if_pos hlt, if_pos hlt, Nat.mod_eq_of_lt (by omega)]
        by_cases hmid : (low + high) / 2 = low ∨ (low + high) / 2 = high
        · rw [if_pos hmid, if_pos hmid]
        · rw [if_neg hmid, if_neg hmid, h.entry_eq (by omega), C.ok_bind]
          by_cases heq : blk = bb.used.getD ((low + high) / 2) 0
          · rw [if_pos heq, if_pos heq]
          · rw [if_neg heq, if_neg heq]
            by_cases hless : blk < bb.used.getD ((low + high) / 2) 0
            · rw [if_pos hless, if_pos hless]
              exact ih (by omega) (by omega) (by omega)
            · rw [if_neg hless, if_neg hless]
              exact ih hhigh (by omega) (by omega)
      · rw [if_neg hlt]
        cases g with
        | zero => rfl
        | succ g => rw [findLoop, if_neg hlt]

/-- Looking for a block reads the entries in use only. -/
theorem find_eq (h : bb.Valid) : bb.find blk = .ok (bbListFind bb.used blk) := by
  have hlength := h.used_length
  rw [find, if_neg (not_not.mpr h.magic), bbListFind, hlength]
  by_cases hempty : bb.num = 0
  · rw [if_pos hempty, if_pos hempty]
  rw [if_neg hempty, if_neg hempty, h.entry_eq (Nat.pos_of_ne_zero hempty), C.ok_bind]
  by_cases hfirst : blk = bb.used.getD 0 0
  · rw [if_pos hfirst, if_pos hfirst]
  rw [if_neg hfirst, if_neg hfirst, h.entry_eq (by omega), C.ok_bind]
  by_cases hlast : blk = bb.used.getD (bb.num - 1) 0
  · rw [if_pos hlast, if_pos hlast]
  rw [if_neg hlast, if_neg hlast]
  exact findSearch_eq h (by omega) (by omega) (by omega)

/-- The list is the sorted set of the blocks, and its array has room for them. -/
structure SortedSet (bb : BbStruct) (blocks : List ℕ) : Prop where
  sorted : bb.used.Pairwise (· < ·)
  mem : ∀ blk, blk ∈ bb.used ↔ blk ∈ blocks
  used_length : bb.used.length = bb.num
  num_le : (bb.num : ℤ) ≤ bb.size
  size_eq : bb.size = bb.list.length
  find_of_mem : ∀ blk ∈ blocks, ∃ i, bb.find blk = .ok (some i) ∧ bb.used[i]? = some blk
  find_of_not_mem : ∀ blk ∉ blocks, bb.find blk = .ok none

theorem Valid.sortedSet (h : bb.Valid) {blocks : List ℕ}
    (hmem : ∀ blk, blk ∈ bb.used ↔ blk ∈ blocks) : bb.SortedSet blocks where
  sorted := h.sorted
  mem := hmem
  used_length := h.used_length
  num_le := h.num_le
  size_eq := h.length_eq.symm
  find_of_mem := by
    intro blk hblk
    have hfound : (bbListFind bb.used blk).isSome :=
      (bbListTest_iff h.sorted).mpr ((hmem blk).mpr hblk)
    obtain ⟨i, hi⟩ := Option.isSome_iff_exists.mp hfound
    exact ⟨i, by rw [find_eq h, hi], bbListFind_sound hi⟩
  find_of_not_mem := by
    intro blk hblk
    rw [find_eq h]
    cases hfound : bbListFind bb.used blk with
    | none => rfl
    | some i =>
        have hat := List.mem_of_getElem? (bbListFind_sound hfound)
        exact absurd ((hmem blk).mp hat) hblk

end BbStruct

theorem BbStruct.Valid.num_eq_card {bb : BbStruct} (h : bb.Valid) :
    bb.num = bb.used.toFinset.card := by
  rw [List.toFinset_card_of_nodup (h.sorted.imp Nat.ne_of_lt), h.used_length]

/-- Calls leave a list of its size, whatever the heap answers. Where it has memory for each of
them, and there are fewer blocks than an `int` counts, they add their blocks. -/
theorem bbRun_achieves : ∀ {calls : List (HeapAnswer ℕ × ℕ)} {bb : BbStruct}, bb.Valid →
    Achieves (bbRun calls bb) fun r => r.2.Valid ∧
      ((∀ c ∈ calls, c.1.allocated = true) →
        (bb.used ++ calls.map Prod.snd).toFinset.card + 100 < 2 ^ 31 →
        (∀ err ∈ r.1, err = .ok) ∧
          ∀ blk, blk ∈ r.2.used ↔ blk ∈ calls.map Prod.snd ∨ blk ∈ bb.used) := by
  intro calls
  induction calls with
  | nil =>
      refine fun h => .ok ⟨h, fun _ _ => ⟨nofun, fun blk => ?_⟩⟩
      exact (or_iff_right List.not_mem_nil).symm
  | cons call calls ih =>
      obtain ⟨answer, b⟩ := call
      intro bb h
      rw [bbRun]
      refine .bind (BbStruct.add_achieves h) ?_
      rintro ⟨err, bb₁⟩ ⟨h₁, hadd⟩
      refine .bind (ih h₁) ?_
      rintro ⟨errs, bb₂⟩ ⟨h₂, hall⟩
      refine .ok ⟨h₂, fun halloc hfew => ?_⟩
      rcases hadd with ⟨-, -, hrefused⟩ | ⟨herr, hused⟩
      · -- the blocks of the list are some of those that there are
        have hsub : bb.used.toFinset ⊆ (bb.used ++ ((answer, b) :: calls).map Prod.snd).toFinset := by
          rw [List.toFinset_append]
          exact Finset.subset_union_left
        have hle := Finset.card_le_card hsub
        rw [← h.num_eq_card] at hle
        have hmany := hrefused (halloc (answer, b) List.mem_cons_self)
        omega
      · have hspec : ∀ blk, blk ∈ bb₁.used ↔ blk = b ∨ blk ∈ bb.used := by
          rw [hused]
          exact (bbListAdd_spec h.sorted).2
        have hsame : (bb₁.used ++ calls.map Prod.snd).toFinset
            = (bb.used ++ ((answer, b) :: calls).map Prod.snd).toFinset := by
          ext blk
          simp only [List.mem_toFinset, List.mem_append, hspec, List.map_cons, List.mem_cons]
          tauto
        obtain ⟨herrs, hmem⟩ :=
          hall (fun c hc => halloc c (List.mem_cons_of_mem _ hc)) (hsame ▸ hfew)
        refine ⟨List.forall_mem_cons.mpr ⟨herr, herrs⟩, fun blk => ?_⟩
        rw [hmem, hspec, List.map_cons, List.mem_cons]
        tauto

/-- **The list is a sorted set.** Blocks that are added to an empty list, where the heap has
memory for each call and there are fewer than an `int` counts, are all added. -/
theorem bbBadblocksListCreate_sortedSet {answer : HeapAnswer ℕ} {size : ℤ} {bb : BbStruct}
    (hcreate : bbBadblocksListCreate answer size = some bb) (calls : List (HeapAnswer ℕ × ℕ))
    (halloc : ∀ c ∈ calls, c.1.allocated = true)
    (hfew : (calls.map Prod.snd).toFinset.card + 100 < 2 ^ 31) :
    ∃ errs bb', bbRun calls bb = .ok (errs, bb') ∧ (∀ err ∈ errs, err = .ok) ∧
      bb'.SortedSet (calls.map Prod.snd) := by
  obtain ⟨h, hnum⟩ := bbBadblocksListCreate_valid hcreate
  obtain ⟨⟨errs, bb'⟩, hrun, h', hall⟩ := @bbRun_achieves calls bb h
  have hempty : bb.used = [] := by
    rw [BbStruct.used, hnum]
    rfl
  rw [hempty, List.nil_append] at hall
  obtain ⟨herrs, hmem⟩ := hall halloc hfew
  refine ⟨errs, bb', hrun, herrs, h'.sortedSet fun blk => ?_⟩
  rw [hmem]
  exact or_iff_left List.not_mem_nil

/-- Four blocks, one of them twice, in a list that is made for two -/
theorem bbBadblocksListCreate_sortedSet_grown : ∃ errs bb',
    bbRun ([5, 3, 5, 9].map fun blk => (⟨true, fun _ => 7⟩, blk)) ⟨true, 0, 2, [0, 0]⟩
      = .ok (errs, bb') ∧ (∀ err ∈ errs, err = .ok) ∧ bb'.SortedSet [5, 3, 5, 9] :=
  bbBadblocksListCreate_sortedSet
    (show bbBadblocksListCreate ⟨true, fun _ => 7⟩ 2 = some ⟨true, 0, 2, [0, 0]⟩ from rfl)
    ([5, 3, 5, 9].map fun blk => (⟨true, fun _ => 7⟩, blk)) (by simp) (by decide)

end Nawam
