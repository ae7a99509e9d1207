import Mathlib.Data.Finite.Prod
import Mathlib.Data.Int.Interval
import Mathlib.Order.Interval.Finset.Nat
import Nawam.Base.Recursion
import Nawam.Parser.FatNameBounds

/-!
# The links of a FAT image

What a FAT image links together: an entry of a directory to the one behind it,
along the chain of clusters that the FAT gives, and the entry of a subdirectory
to the cluster that it starts with. A loop over a directory goes from entry to
entry, with the number of the last piece of a long name (`FatDirent.step`). The
nodes that can be reached are finitely many (`finite_reached`); a call of
`libfat_dumpdir` goes along the links to the next item (`libfatDumpdir_calls`),
and where it returns there is nothing before that item that goes on forever
(`ends_of_libfatDumpdir`).
-/

namespace Nawam

open Relation

/-! ## Links -/

/-- What an entry is for the loop over a directory. -/
inductive DirStep where
  /-- read on -/
  | on (j : ℤ)
  /-- the last one -/
  | stop
  /-- written outside of the name -/
  | fault
  | item (cluster : Int32) (isDir : Bool)
deriving DecidableEq

/-- An entry behind a piece of a long name, whose number less one is `j`, or between
two items, where `j` is -1. -/
def FatDirent.step (j : ℤ) (e : FatDirent) : DirStep :=
  if j < 0 ∧ e.isIgnored = true then .on (-1)
  else if j < 0 ∧ e.id = 0 then .stop
  else if e.attr = 0x0F ∧ (0 ≤ j ∨ e.id &&& 0xF0 = 0x40) then
    if 0 ≤ j ∧ e.seq ≠ j - 1 then .stop
    else if e.seq < 0 then .fault
    else .on e.seq
  else if e.startCluster.toInt32 < 0 then .stop
  else .item e.startCluster.toInt32 (e.attr &&& 0x10 ≠ 0)

/-- A place in a directory, and the number less one of the last piece. -/
structure DirNode where
  j : ℤ
  dp : Dirpos

/-- In front of the directory that starts with a cluster. -/
def DirNode.start (cluster : Int32) : DirNode := ⟨-1, ⟨cluster, -1, 0⟩⟩

namespace LibfatFilesystem

/-- Where the entry that is read next leads to. -/
inductive Link (fs : LibfatFilesystem) (n : DirNode) : DirNode → Prop
  | on {e : FatDirent} {dp : Dirpos} {j : ℤ} :
      fs.firstDirent n.dp = some (e, dp) → e.step n.j = .on j → Link fs n ⟨j, dp⟩
  | item {e : FatDirent} {dp : Dirpos} {cluster : Int32} {isDir : Bool} :
      fs.firstDirent n.dp = some (e, dp) → e.step n.j = .item cluster isDir →
      Link fs n ⟨-1, { dp with cluster }⟩
  | subdir {e : FatDirent} {dp : Dirpos} {cluster : Int32} :
      fs.firstDirent n.dp = some (e, dp) → e.step n.j = .item cluster true →
      Link fs n (.start cluster)

/-- The entry that is read next is written outside of the name. -/
def Overflows (fs : LibfatFilesystem) (n : DirNode) : Prop :=
  ∃ e dp, fs.firstDirent n.dp = some (e, dp) ∧ e.step n.j = .fault

/-- Whichever links are followed from here, they come to an end, and no name
overflows. -/
inductive Ends (fs : LibfatFilesystem) : DirNode → Prop
  | intro {n : DirNode} :
      ¬fs.Overflows n → (∀ m, fs.Link n m → Ends fs m) → Ends fs n

variable {fs : LibfatFilesystem} {n : DirNode}

theorem Ends.inv (h : fs.Ends n) : ¬fs.Overflows n ∧ ∀ m, fs.Link n m → fs.Ends m := by
  cases h with
  | intro hsafe hlinks => exact ⟨hsafe, hlinks⟩

theorem Ends.of_leads {m : DirNode} (h : fs.Ends n) (hleads : ReflTransGen fs.Link n m) :
    fs.Ends m := by
  induction hleads with
  | refl => exact h
  | tail _ hlink ih => exact ih.inv.2 _ hlink

theorem ends_iff : fs.Ends n ↔
    Acc (flip fs.Link) n ∧ ∀ m, ReflTransGen fs.Link n m → ¬fs.Overflows m := by
  constructor
  · intro h
    refine ⟨?_, fun m hleads => (h.of_leads hleads).inv.1⟩
    induction h with
    | intro _ _ ih => exact ⟨_, ih⟩
  · rintro ⟨hacc, hsafe⟩
    induction hacc with
    | intro n _ ih =>
        refine .intro (hsafe n .refl) fun m hlink => ?_
        exact ih m hlink fun k hleads => hsafe k (.head hlink hleads)

/-! ## Finitely many nodes -/

structure InRange (fs : LibfatFilesystem) (n : DirNode) : Prop where
  j : -1 ≤ n.j ∧ n.j ≤ 14
  offset : -1 ≤ n.dp.offset ∧ n.dp.offset ≤ fs.sectorSize

theorem offset_of_firstDirent {dp dp' : Dirpos} {e : FatDirent}
    (h : fs.firstDirent dp = some (e, dp')) : 0 ≤ dp'.offset ∧ dp'.offset ≤ fs.sectorSize := by
  have hmap {x : Option (List UInt8)} {f : List UInt8 → FatDirent × Dirpos}
      (h : x.map f = some (e, dp')) : ∃ data, f data = (e, dp') := by
    obtain ⟨data, -, heq⟩ := Option.map_eq_some_iff.mp h
    exact ⟨data, heq⟩
  rw [firstDirent] at h
  split at h
  case isTrue =>
    simp only [getFirstDirent] at h
    split at h
    case isTrue =>
      obtain ⟨data, heq⟩ := hmap h
      cases heq
      exact ⟨le_refl 0, Int.natCast_nonneg _⟩
    case isFalse => cases h
  case isFalse hdp =>
    simp only [getNextDirent] at h
    split at h
    case isTrue =>
      split at h
      case isTrue =>
        obtain ⟨data, heq⟩ := hmap h
        cases heq
        exact ⟨le_refl 0, Int.natCast_nonneg _⟩
      case isFalse => cases h
    case isFalse hsize =>
      obtain ⟨data, heq⟩ := hmap h
      cases heq
      dsimp only
      omega

/-- Where the loop reads on, it is between two items, or behind the entry. -/
theorem step_on {j j' : ℤ} {e : FatDirent} (h : e.step j = .on j') : j' = -1 ∨ j' = e.seq := by
  rw [FatDirent.step] at h
  split at h
  case isTrue =>
    cases h
    exact .inl rfl
  case isFalse =>
  split at h
  case isTrue => cases h
  case isFalse =>
  split at h
  case isTrue =>
    split at h
    case isTrue => cases h
    case isFalse =>
      split at h
      case isTrue => cases h
      case isFalse =>
        cases h
        exact .inr rfl
  case isFalse =>
    split at h
    case isTrue => cases h
    case isFalse => cases h

theorem between_le : (-1 : ℤ) ≤ -1 ∧ (-1 : ℤ) ≤ 14 := by decide

theorem inRange_start (cluster : Int32) : fs.InRange (.start cluster) :=
  ⟨between_le, le_refl _, (Int.natCast_nonneg _).trans' (by decide : (-1 : ℤ) ≤ 0)⟩

theorem InRange.of_link {m : DirNode} (hlink : fs.Link n m) : fs.InRange m := by
  cases hlink with
  | @on e _ _ hread hstep =>
      have hoffset := offset_of_firstDirent hread
      have hseq := e.seq_bounds
      refine ⟨?_, hoffset.1.trans' (by decide), hoffset.2⟩
      rcases step_on hstep with rfl | rfl
      · exact between_le
      · exact hseq
  | item hread hstep =>
      have hoffset := offset_of_firstDirent hread
      exact ⟨between_le, hoffset.1.trans' (by decide), hoffset.2⟩
  | subdir => exact inRange_start _

theorem finite_inRange (fs : LibfatFilesystem) : {n | fs.InRange n}.Finite := by
  let make (x : ℤ × ℕ × ℤ × ℕ) : DirNode :=
    ⟨x.1, ⟨(UInt32.ofNat x.2.1).toInt32, x.2.2.1, UInt64.ofNat x.2.2.2⟩⟩
  have hfinite : (Set.Icc (-1 : ℤ) 14 ×ˢ Set.Iio (2 ^ 32 : ℕ) ×ˢ Set.Icc (-1 : ℤ) fs.sectorSize ×ˢ
      Set.Iio (2 ^ 64 : ℕ)).Finite :=
    (Set.toFinite (Set.Icc (-1 : ℤ) 14)).prod ((Set.toFinite (Set.Iio (2 ^ 32 : ℕ))).prod
      ((Set.toFinite (Set.Icc (-1 : ℤ) fs.sectorSize)).prod (Set.toFinite (Set.Iio (2 ^ 64 : ℕ)))))
  refine (hfinite.image make).subset ?_
  rintro ⟨j, cluster, offset, sector⟩ ⟨hj, hoffset⟩
  refine ⟨⟨j, cluster.toUInt32.toNat, offset, sector.toNat⟩, ⟨hj, ?_, hoffset, ?_⟩, ?_⟩
  · exact cluster.toUInt32.toNat_lt
  · exact sector.toNat_lt
  · show (⟨j, ⟨(UInt32.ofNat cluster.toUInt32.toNat).toInt32, offset,
      UInt64.ofNat sector.toNat⟩⟩ : DirNode) = _
    rw [UInt32.ofNat_toNat, UInt64.ofNat_toNat]
    rfl

theorem finite_reached (fs : LibfatFilesystem) (cluster : Int32) :
    {n | ReflTransGen fs.Link (.start cluster) n}.Finite := by
  refine fs.finite_inRange.subset fun n hleads => ?_
  cases hleads with
  | refl => exact inRange_start cluster
  | tail _ hlink => exact .of_link hlink

/-- Links come to an end unless they lead back. -/
theorem ends_start_iff (fs : LibfatFilesystem) (cluster : Int32) :
    fs.Ends (.start cluster) ↔ ¬LeadsToCycle fs.Link (.start cluster) ∧
      ∀ n, ReflTransGen fs.Link (.start cluster) n → ¬fs.Overflows n := by
  rw [ends_iff, acc_iff_no_cycle (fs.finite_reached cluster)]

/-! ## A turn of the loop over a long name -/

end LibfatFilesystem

/-- `diritem.attributes & 0x10` -/
def LibfatDiritem.isDir (di : LibfatDiritem) : Bool := di.attributes &&& 0x10 ≠ 0

theorem isDir_diritemOf (name : List Wchar) (e : FatDirent) :
    (diritemOf name e).2.isDir = decide (e.attr &&& 0x10 ≠ 0) := by
  show decide (e.attr &&& 0x37 &&& 0x10 ≠ 0) = _
  rw [UInt8.and_assoc]
  rfl

/-- The entry is not passed over. -/
def Counted (j : ℤ) (e : FatDirent) : Prop := 0 ≤ j ∨ e.isIgnored = false ∧ e.id ≠ 0

/-- What the loop over a long name does with an entry. -/
theorem longNameBody_step {j : ℤ} {name : List Wchar} {e : FatDirent}
    (hname : name.length = nameSize) (h : Counted j e) :
    match e.step j with
    | .on j' => 0 ≤ j' ∧ ∃ name', longNameBody (j, name) e = .ok (.on (j', name')) ∧
        name'.length = nameSize
    | .stop => longNameBody (j, name) e = .ok (.stop (-3)) ∨
        longNameBody (j, name) e = .ok .leave ∧ e.startCluster.toInt32 < 0
    | .fault => longNameBody (j, name) e = .error .outOfBounds
    | .item cluster isDir => longNameBody (j, name) e = .ok .leave ∧
        cluster = e.startCluster.toInt32 ∧ ¬cluster < 0 ∧
        isDir = decide (e.attr &&& 0x10 ≠ 0) := by
  have hignored : ¬(j < 0 ∧ e.isIgnored = true) := by
    rintro ⟨hj, hi⟩
    rcases h with h | h
    · omega
    · rw [h.1] at hi
      cases hi
  have hid : ¬(j < 0 ∧ e.id = 0) := by
    rintro ⟨hj, hi⟩
    rcases h with h | h
    · omega
    · exact h.2 hi
  rw [FatDirent.step, if_neg hignored, if_neg hid, longNameBody_eq]
  by_cases hslot : e.attr = 0x0F ∧ (0 ≤ j ∨ e.id &&& 0xF0 = 0x40)
  · rw [if_pos hslot, if_pos hslot]
    by_cases hseq : 0 ≤ j ∧ e.seq ≠ j - 1
    · rw [if_pos hseq, if_pos hseq]
      exact .inl rfl
    · rw [if_neg hseq, if_neg hseq]
      by_cases hneg : e.seq < 0
      · rw [if_pos hneg, fillUtf16_of_neg hname hneg]
        rfl
      · obtain ⟨name', hfill, hname'⟩ := fillUtf16_of_nonneg hname (not_lt.mp hneg)
        rw [if_neg hneg, hfill]
        exact ⟨not_lt.mp hneg, name', rfl, hname'⟩
  · rw [if_neg hslot, if_neg hslot]
    generalize e.startCluster.toInt32 = cluster
    by_cases hneg : cluster < 0
    · rw [if_pos hneg]
      exact .inr ⟨rfl, hneg⟩
    · rw [if_neg hneg]
      exact ⟨rfl, rfl, hneg, rfl⟩

/-! ## Calls -/

namespace LibfatFilesystem

variable {fs : LibfatFilesystem} {n : DirNode}

/-- A call, from the entry on that is not passed over. -/
def itemFrom (fs : LibfatFilesystem) (fuel : ℕ) (state : ℤ × List Wchar) (e : FatDirent)
    (dp : Dirpos) : C (Reached (Int32 × LibfatDiritem) Dirpos) :=
  Reached.bind (walk fs.getNextDirent longNameBody fuel state e dp)
    fun ((_, name), dep) dp => .ok (.here (diritemOf name dep) dp)

/-- A call, from the entry on that is read first. -/
def callFrom (fs : LibfatFilesystem) (fuel' fuel : ℕ) (e : FatDirent) (dp : Dirpos) :
    C (Reached (Int32 × LibfatDiritem) Dirpos) :=
  Reached.bind (walk fs.getNextDirent ignoredBody fuel () e dp) fun (_, dep) dp =>
    if dep.id = 0 then .ok (.stop (-2)) else fs.itemFrom fuel' (-1, noName) dep dp

theorem libfatDumpdir_eq (fs : LibfatFilesystem) (fuel : ℕ) (dp : Dirpos) :
    libfatDumpdir fs fuel dp =
      match fs.firstDirent dp with
      | none => .ok (.stop (-1))
      | some (e, dp) => fs.callFrom fuel fuel e dp := rfl

theorem itemFrom_succ (fs : LibfatFilesystem) (fuel : ℕ) (state : ℤ × List Wchar)
    (e : FatDirent) (dp : Dirpos) :
    fs.itemFrom (fuel + 1) state e dp =
      match longNameBody state e with
      | .error f => .error f
      | .ok .leave => .ok (.here (diritemOf state.2 e) dp)
      | .ok (.stop code) => .ok (.stop code)
      | .ok (.on state) =>
          match fs.getNextDirent dp with
          | none => .ok (.stop (-1))
          | some (e, dp) => fs.itemFrom fuel state e dp := by
  rw [itemFrom, walk]
  cases longNameBody state e with
  | error f => rfl
  | ok turn =>
      cases turn with
      | leave => rfl
      | stop code => rfl
      | on state =>
          cases fs.getNextDirent dp with
          | none => rfl
          | some read => rfl

theorem callFrom_succ (fs : LibfatFilesystem) (fuel' fuel : ℕ) (e : FatDirent) (dp : Dirpos) :
    fs.callFrom fuel' (fuel + 1) e dp =
      if e.isIgnored = true then
        match fs.getNextDirent dp with
        | none => .ok (.stop (-1))
        | some (e, dp) => fs.callFrom fuel' fuel e dp
      else if e.id = 0 then .ok (.stop (-2))
      else fs.itemFrom fuel' (-1, noName) e dp := by
  rw [callFrom, walk, ignoredBody]
  cases e.isIgnored with
  | true =>
      cases fs.getNextDirent dp with
      | none => rfl
      | some read => rfl
  | false => rfl

/-- Behind an entry that was read the next one is read. -/
theorem firstDirent_behind {dp dp' : Dirpos} {e : FatDirent}
    (h : fs.firstDirent dp = some (e, dp')) : fs.firstDirent dp' = fs.getNextDirent dp' :=
  if_neg (not_lt.mpr (offset_of_firstDirent h).1)

/-- The item that a call comes to is linked to. -/
def Calls (fs : LibfatFilesystem) (n : DirNode)
    (out : Reached (Int32 × LibfatDiritem) Dirpos) : Prop :=
  match out with
  | .stop _ => True
  | .here call dp => call.1 < 0 ∨
      TransGen fs.Link n ⟨-1, { dp with cluster := call.1 }⟩ ∧
        (call.2.isDir = true → TransGen fs.Link n (.start call.1))

theorem Calls.head {m : DirNode} {out : Reached (Int32 × LibfatDiritem) Dirpos}
    (hlink : fs.Link n m) (h : fs.Calls m out) : fs.Calls n out := by
  match out, h with
  | .stop _, _ => trivial
  | .here call dp, .inl hneg => exact .inl hneg
  | .here call dp, .inr ⟨hitem, hdir⟩ =>
      exact .inr ⟨.head hlink hitem, fun h => .head hlink (hdir h)⟩

theorem itemFrom_calls (h : fs.Ends n) : ∀ {e : FatDirent} {dp : Dirpos} {name : List Wchar},
    fs.firstDirent n.dp = some (e, dp) → Counted n.j e → name.length = nameSize →
    ∃ out, fs.Calls n out ∧ ∃ N, ∀ fuel ≥ N, fs.itemFrom fuel (n.j, name) e dp = .ok out := by
  induction h with
  | @intro n hsafe hlinks ih =>
      intro e dp name hread hlisted hname
      have hbody := longNameBody_step hname hlisted
      have hsucc (out : Reached (Int32 × LibfatDiritem) Dirpos) (hcalls : fs.Calls n out)
          (hout : ∀ fuel, fs.itemFrom (fuel + 1) (n.j, name) e dp = .ok out) :
          ∃ out, fs.Calls n out ∧
            ∃ N, ∀ fuel ≥ N, fs.itemFrom fuel (n.j, name) e dp = .ok out := by
        refine ⟨out, hcalls, 1, fun fuel hfuel => ?_⟩
        obtain ⟨k, rfl⟩ := Nat.exists_eq_add_of_le' hfuel
        exact hout k
      cases hstep : e.step n.j with
      | fault => exact absurd ⟨e, dp, hread, hstep⟩ hsafe
      | stop =>
          rw [hstep] at hbody
          rcases hbody with hbody | ⟨hbody, hneg⟩
          · exact hsucc (.stop (-3)) trivial fun fuel => by rw [itemFrom_succ, hbody]
          · exact hsucc (.here (diritemOf name e) dp) (.inl hneg)
              fun fuel => by rw [itemFrom_succ, hbody]
      | item cluster isDir =>
          rw [hstep] at hbody
          obtain ⟨hbody, rfl, -, rfl⟩ := hbody
          refine hsucc (.here (diritemOf name e) dp)
            (.inr ⟨.single (.item hread hstep), fun hdir => .single (.subdir hread ?_)⟩)
            fun fuel => by rw [itemFrom_succ, hbody]
          rw [hstep, ← isDir_diritemOf name, hdir]
          rfl
      | on j =>
          rw [hstep] at hbody
          obtain ⟨hj, name', hbody, hname'⟩ := hbody
          have hlink : fs.Link n ⟨j, dp⟩ := .on hread hstep
          have hnext := firstDirent_behind hread
          cases hread' : fs.getNextDirent dp with
          | none =>
              refine hsucc (.stop (-1)) trivial fun fuel => ?_
              simp only [itemFrom_succ, hbody, hread']
          | some read =>
              obtain ⟨out, hcalls, N, hN⟩ := ih _ hlink (hnext.trans hread') (.inl hj) hname'
              refine ⟨out, hcalls.head hlink, N + 1, fun fuel hfuel => ?_⟩
              obtain ⟨k, rfl⟩ := Nat.exists_eq_add_of_le' hfuel
              rw [← Nat.add_assoc]
              simp only [itemFrom_succ, hbody, hread']
              exact hN _ (Nat.le_add_left N k)

theorem callFrom_calls (h : fs.Ends n) : ∀ {e : FatDirent} {dp : Dirpos}, n.j = -1 →
    fs.firstDirent n.dp = some (e, dp) →
    ∃ out, fs.Calls n out ∧
      ∃ N, ∀ fuel' ≥ N, ∀ fuel ≥ N, fs.callFrom fuel' fuel e dp = .ok out := by
  induction h with
  | @intro n hsafe hlinks ih =>
      intro e dp hj hread
      cases hignored : e.isIgnored with
      | true =>
          have hstep : e.step n.j = .on (-1) := by
            rw [FatDirent.step, if_pos ⟨by rw [hj]; decide, hignored⟩]
          have hlink : fs.Link n ⟨-1, dp⟩ := .on hread hstep
          have hnext := firstDirent_behind hread
          cases hread' : fs.getNextDirent dp with
          | none =>
              refine ⟨.stop (-1), trivial, 1, fun fuel' _ fuel hfuel => ?_⟩
              obtain ⟨k, rfl⟩ := Nat.exists_eq_add_of_le' hfuel
              simp only [callFrom_succ, hignored, hread', if_true]
          | some read =>
              obtain ⟨out, hcalls, N, hN⟩ := ih _ hlink rfl (hnext.trans hread')
              refine ⟨out, hcalls.head hlink, N + 1, fun fuel' hfuel' fuel hfuel => ?_⟩
              obtain ⟨k, rfl⟩ := Nat.exists_eq_add_of_le' hfuel
              rw [← Nat.add_assoc]
              simp only [callFrom_succ, hignored, hread', if_true]
              exact hN _ (Nat.le_of_succ_le hfuel') _ (Nat.le_add_left N k)
      | false =>
          by_cases hid : e.id = 0
          · refine ⟨.stop (-2), trivial, 1, fun fuel' _ fuel hfuel => ?_⟩
            obtain ⟨k, rfl⟩ := Nat.exists_eq_add_of_le' hfuel
            rw [callFrom_succ, hignored, if_neg (by decide), if_pos hid]
          · obtain ⟨out, hcalls, N, hN⟩ :=
              itemFrom_calls (.intro hsafe hlinks) hread (.inr ⟨hignored, hid⟩) noName_length
            refine ⟨out, hcalls, N + 1, fun fuel' hfuel' fuel hfuel => ?_⟩
            obtain ⟨k, rfl⟩ := Nat.exists_eq_add_of_le' hfuel
            rw [← Nat.add_assoc, callFrom_succ, hignored, if_neg (by decide), if_neg hid, ← hj]
            exact hN fuel' (Nat.le_of_succ_le hfuel')

/-- **A call returns** where the links come to an end, and the item that it comes
to is linked to. -/
theorem libfatDumpdir_calls {dp : Dirpos} (h : fs.Ends ⟨-1, dp⟩) :
    ∃ out, fs.Calls ⟨-1, dp⟩ out ∧ ∃ N, ∀ fuel ≥ N, libfatDumpdir fs fuel dp = .ok out := by
  cases hread : fs.firstDirent dp with
  | none =>
      refine ⟨.stop (-1), trivial, 0, fun fuel _ => ?_⟩
      simp only [libfatDumpdir_eq, hread]
  | some read =>
      obtain ⟨out, hcalls, N, hN⟩ := callFrom_calls h rfl hread
      refine ⟨out, hcalls, N, fun fuel hfuel => ?_⟩
      simp only [libfatDumpdir_eq, hread]
      exact hN fuel hfuel fuel hfuel

/-! ## Back from what a call returns -/

/-- From the item that a call comes to the links come to an end. -/
def EndsBehind (fs : LibfatFilesystem) (out : Reached (Int32 × LibfatDiritem) Dirpos) : Prop :=
  match out with
  | .stop _ => True
  | .here call dp => call.1 < 0 ∨ fs.Ends ⟨-1, { dp with cluster := call.1 }⟩ ∧
      (call.2.isDir = true → fs.Ends (.start call.1))

theorem ends_of_none (h : fs.firstDirent n.dp = none) : fs.Ends n := by
  refine .intro ?_ fun m hlink => ?_
  · rintro ⟨e, dp, hread, -⟩
    rw [h] at hread
    cases hread
  · cases hlink with
    | on hread => rw [h] at hread; cases hread
    | item hread => rw [h] at hread; cases hread
    | subdir hread => rw [h] at hread; cases hread

/-- Links come to an end if they do behind the entry that is read next. -/
theorem ends_of_step {e : FatDirent} {dp : Dirpos} (hread : fs.firstDirent n.dp = some (e, dp))
    (h : match e.step n.j with
      | .on j => fs.Ends ⟨j, dp⟩
      | .stop => True
      | .fault => False
      | .item cluster isDir => fs.Ends ⟨-1, { dp with cluster }⟩ ∧
          (isDir = true → fs.Ends (.start cluster))) : fs.Ends n := by
  refine .intro ?_ fun m hlink => ?_
  · rintro ⟨e', dp', hread', hstep⟩
    rw [hread] at hread'
    cases hread'
    rw [hstep] at h
    exact h
  · cases hlink with
    | on hread' hstep =>
        rw [hread] at hread'
        cases hread'
        rw [hstep] at h
        exact h
    | item hread' hstep =>
        rw [hread] at hread'
        cases hread'
        rw [hstep] at h
        exact h.1
    | subdir hread' hstep =>
        rw [hread] at hread'
        cases hread'
        rw [hstep] at h
        exact h.2 rfl

theorem ends_of_itemFrom : ∀ {fuel : ℕ} {n : DirNode} {e : FatDirent} {dp : Dirpos}
    {name : List Wchar} {out : Reached (Int32 × LibfatDiritem) Dirpos},
    fs.firstDirent n.dp = some (e, dp) → Counted n.j e → name.length = nameSize →
    fs.itemFrom fuel (n.j, name) e dp = .ok out → fs.EndsBehind out → fs.Ends n := by
  intro fuel
  induction fuel with
  | zero => exact fun _ _ _ h => nomatch h
  | succ fuel ih =>
      intro n e dp name out hread hlisted hname hcall hout
      have hbody := longNameBody_step hname hlisted
      refine ends_of_step hread ?_
      cases hstep : e.step n.j with
      | fault =>
          rw [hstep] at hbody
          rw [itemFrom_succ, hbody] at hcall
          cases hcall
      | stop => trivial
      | item cluster isDir =>
          rw [hstep] at hbody
          obtain ⟨hbody, rfl, hpos, rfl⟩ := hbody
          rw [itemFrom_succ, hbody] at hcall
          cases hcall
          have hbehind := hout.resolve_left hpos
          exact ⟨hbehind.1, fun hdir => hbehind.2 ((isDir_diritemOf name e).trans hdir)⟩
      | on j =>
          rw [hstep] at hbody
          obtain ⟨hj, name', hbody, hname'⟩ := hbody
          simp only [itemFrom_succ, hbody] at hcall
          have hnext := firstDirent_behind hread
          cases hread' : fs.getNextDirent dp with
          | none => exact ends_of_none (hnext.trans hread')
          | some read =>
              simp only [hread'] at hcall
              exact ih (n := ⟨j, dp⟩) (hnext.trans hread') (.inl hj) hname' hcall hout

theorem ends_of_callFrom {fuel' : ℕ} : ∀ {fuel : ℕ} {n : DirNode} {e : FatDirent} {dp : Dirpos}
    {out : Reached (Int32 × LibfatDiritem) Dirpos}, n.j = -1 →
    fs.firstDirent n.dp = some (e, dp) → fs.callFrom fuel' fuel e dp = .ok out →
    fs.EndsBehind out → fs.Ends n := by
  intro fuel
  induction fuel with
  | zero => exact fun _ _ h => nomatch h
  | succ fuel ih =>
      intro n e dp out hj hread hcall hout
      have hneg : n.j < 0 := by
        rw [hj]
        decide
      rw [callFrom_succ] at hcall
      cases hignored : e.isIgnored with
      | true =>
          simp only [hignored, if_true] at hcall
          refine ends_of_step hread ?_
          rw [FatDirent.step, if_pos ⟨hneg, hignored⟩]
          have hnext := firstDirent_behind hread
          cases hread' : fs.getNextDirent dp with
          | none => exact ends_of_none (hnext.trans hread')
          | some read =>
              simp only [hread'] at hcall
              exact ih (n := ⟨-1, dp⟩) rfl (hnext.trans hread') hcall hout
      | false =>
          simp only [hignored, Bool.false_eq_true, if_false] at hcall
          by_cases hid : e.id = 0
          · refine ends_of_step hread ?_
            rw [FatDirent.step, if_neg (by simp [hignored]), if_pos ⟨hneg, hid⟩]
            trivial
          · rw [if_neg hid, ← hj] at hcall
            exact ends_of_itemFrom hread (.inr ⟨hignored, hid⟩) noName_length hcall hout

/-- **A call that returns** has nothing before its item that goes on forever. -/
theorem ends_of_libfatDumpdir {fuel : ℕ} {dp : Dirpos}
    {out : Reached (Int32 × LibfatDiritem) Dirpos} (hcall : libfatDumpdir fs fuel dp = .ok out)
    (hout : fs.EndsBehind out) : fs.Ends ⟨-1, dp⟩ := by
  rw [libfatDumpdir_eq] at hcall
  cases hread : fs.firstDirent dp with
  | none => exact ends_of_none hread
  | some read =>
      simp only [hread] at hcall
      exact ends_of_callFrom rfl hread hcall hout

end LibfatFilesystem

end Nawam
