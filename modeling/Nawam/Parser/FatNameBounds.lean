import Nawam.Parser.FatListing

/-!
# The name buffer of a directory item

Where `libfat_dumpdir` writes a piece of a long name follows from the sequence
number of the entry less one. The number 0 makes that -1, which the comparison
with a `size_t` takes for a large one and cuts off to 243: an index that is then
multiplied by 13, for a buffer of 256. An entry with the number 0 is looked at
behind those that count down to it, the first one of them being marked, and
only there (`libfatDumpdir_inBounds_iff`).
-/

namespace Nawam

/-! ## What should not happen -/

/-- Entries of a long name that count down to the number 0, from the one whose
number less one is `i`. -/
inductive CountDown : ℤ → List FatDirent → Prop
  | zero {e : FatDirent} : e.attr = 0x0F → e.seq = -1 → CountDown (-1) [e]
  | next {i : ℤ} {e : FatDirent} {es : List FatDirent} :
      e.attr = 0x0F → e.seq = i → 0 ≤ i → CountDown (i - 1) es → CountDown i (e :: es)

namespace LibfatFilesystem

def firstDirent (fs : LibfatFilesystem) (dp : Dirpos) : Option (FatDirent × Dirpos) :=
  if dp.offset < 0 then fs.getFirstDirent dp else fs.getNextDirent dp

/-- These are the first entries that there are for a call. -/
def ReadsFrom (fs : LibfatFilesystem) (dp : Dirpos) (es : List FatDirent) : Prop :=
  ∃ dep dp' rest dp'', fs.firstDirent dp = some (dep, dp') ∧
    ReadsTo fs.getNextDirent dp' rest dp'' ∧ es <+: dep :: rest

/-- Behind what is not listed there are entries that count down to 0, the first
one being marked. -/
def Wild (fs : LibfatFilesystem) (dp : Dirpos) : Prop :=
  ∃ ignored e es, fs.ReadsFrom dp (ignored ++ e :: es) ∧
    (∀ dep ∈ ignored, dep.isIgnored = true) ∧ e.id &&& 0xF0 = 0x40 ∧ CountDown e.seq (e :: es)

/-- All writes to the name of a call are inside the buffer, which keeps its
size. -/
def InBounds (fs : LibfatFilesystem) (dp : Dirpos) : Prop :=
  ∀ fuel, libfatDumpdir fs fuel dp ≠ .error .outOfBounds ∧
    ∀ call dp', libfatDumpdir fs fuel dp = .ok (.here call dp') → call.2.name.length = nameSize

/-- The positions that the loop over a directory comes to. -/
inductive DumpRun (fs : LibfatFilesystem) (cluster : Int32) : Dirpos → Prop
  | start : DumpRun fs cluster ⟨cluster, -1, 0⟩
  | call {dp dp' : Dirpos} {call : Int32 × LibfatDiritem} {fuel : ℕ} :
      DumpRun fs cluster dp → libfatDumpdir fs fuel dp = .ok (.here call dp') →
        ¬call.1 < 0 → DumpRun fs cluster { dp' with cluster := call.1 }

end LibfatFilesystem

/-! ## The loop over a long name -/

theorem CountDown.seq_eq {i : ℤ} {e : FatDirent} {es : List FatDirent}
    (h : CountDown i (e :: es)) : e.attr = 0x0F ∧ e.seq = i := by
  cases h with
  | zero hattr hseq => exact ⟨hattr, hseq⟩
  | next hattr hseq _ _ => exact ⟨hattr, hseq⟩

theorem not_countDown_nil {i : ℤ} : ¬CountDown i [] := nofun

theorem CountDown.tail {i : ℤ} {e : FatDirent} {es : List FatDirent} (h : CountDown i (e :: es))
    (hi : 0 ≤ i) : CountDown (i - 1) es := by
  cases h with
  | zero => exact absurd hi (by decide)
  | next _ _ _ hrest => exact hrest

/-- A piece that has a place leaves the buffer as large as it was. -/
theorem fillUtf16_of_nonneg {name : List Wchar} {e : FatDirent} (hname : name.length = nameSize)
    (h : 0 ≤ e.seq) : ∃ name', fillUtf16 name (slotIndex e.seq) e = .ok name' ∧
      name'.length = nameSize := by
  have hle := (slotIndex_of_nonneg h).2
  have hunits : e.units.length = 13 := by simp [FatDirent.units]
  rw [fillUtf16, if_pos (by rw [hname, nameSize]; omega)]
  refine ⟨_, rfl, ?_⟩
  simp only [List.length_append, List.length_take, List.length_drop, hunits, hname, nameSize]
  omega

/-- Behind an entry whose number less one is `j` the loop faults if and only if
what follows counts down to 0. -/
theorem longName_fault_iff : ∀ {es : List FatDirent} {j : ℤ} {name : List Wchar},
    0 ≤ j → name.length = nameSize →
    (walkList longNameBody (j, name) es = .error .outOfBounds ↔
      ∃ set rest, es = set ++ rest ∧ CountDown (j - 1) set) := by
  intro es
  induction es with
  | nil =>
      intro j name hj hname
      refine iff_of_false C.ok_ne_error ?_
      rintro ⟨set, rest, hsplit, hcount⟩
      obtain ⟨rfl, rfl⟩ := List.append_eq_nil_iff.mp hsplit.symm
      exact not_countDown_nil hcount
  | cons e es ih =>
      intro j name hj hname
      have hhead : (∃ set rest, e :: es = set ++ rest ∧ CountDown (j - 1) set) →
          e.attr = 0x0F ∧ e.seq = j - 1 := by
        rintro ⟨_ | ⟨e', set⟩, rest, hsplit, hcount⟩
        · exact absurd hcount not_countDown_nil
        · obtain ⟨rfl, -⟩ := List.cons.inj hsplit
          exact hcount.seq_eq
      rw [walkList, longNameBody_eq]
      by_cases hattr : e.attr = 0x0F
      · rw [if_pos ⟨hattr, .inl hj⟩]
        by_cases hseq : e.seq = j - 1
        · rw [if_neg (by simp [hseq])]
          by_cases hneg : e.seq < 0
          · rw [fillUtf16_of_neg hname hneg]
            refine iff_of_true rfl ⟨[e], es, rfl, ?_⟩
            obtain rfl : j = 0 := by omega
            exact .zero hattr hseq
          · obtain ⟨name', hfill, hname'⟩ := fillUtf16_of_nonneg hname (not_lt.mp hneg)
            rw [hfill]
            refine (ih (not_lt.mp hneg) hname').trans ?_
            constructor
            · rintro ⟨set, rest, rfl, hcount⟩
              exact ⟨e :: set, rest, rfl, .next hattr hseq (hseq ▸ not_lt.mp hneg) (hseq ▸ hcount)⟩
            · rintro ⟨_ | ⟨e', set⟩, rest, hsplit, hcount⟩
              · exact absurd hcount not_countDown_nil
              · obtain ⟨-, rfl⟩ := List.cons.inj hsplit
                exact ⟨set, rest, rfl, hseq ▸ hcount.tail (hseq ▸ not_lt.mp hneg)⟩
        · rw [if_pos ⟨hj, hseq⟩]
          exact iff_of_false C.ok_ne_error fun h => hseq (hhead h).2
      · rw [if_neg fun h => hattr h.1]
        exact iff_of_false C.ok_ne_error fun h => hattr (hhead h).1

theorem longName_first_fault_iff {e : FatDirent} {es : List FatDirent} {name : List Wchar}
    (hname : name.length = nameSize) :
    walkList longNameBody (-1, name) (e :: es) = .error .outOfBounds ↔
      e.id &&& 0xF0 = 0x40 ∧ ∃ set rest, es = set ++ rest ∧ CountDown e.seq (e :: set) := by
  have hneg : ¬(0 : ℤ) ≤ -1 := by decide
  rw [walkList, longNameBody_eq]
  by_cases hslot : e.attr = 0x0F ∧ e.id &&& 0xF0 = 0x40
  · rw [if_pos ⟨hslot.1, .inr hslot.2⟩, if_neg fun h => hneg h.1]
    by_cases hseq : e.seq < 0
    · have hminus : e.seq = -1 := by
        have := e.seq_bounds
        omega
      rw [fillUtf16_of_neg hname hseq]
      exact iff_of_true rfl ⟨hslot.2, [], es, rfl, hminus ▸ .zero hslot.1 hminus⟩
    · obtain ⟨name', hfill, hname'⟩ := fillUtf16_of_nonneg hname (not_lt.mp hseq)
      rw [hfill]
      refine (longName_fault_iff (not_lt.mp hseq) hname').trans ?_
      constructor
      · rintro ⟨set, rest, hsplit, hcount⟩
        exact ⟨hslot.2, set, rest, hsplit, .next hslot.1 rfl (not_lt.mp hseq) hcount⟩
      · rintro ⟨-, set, rest, hsplit, hcount⟩
        exact ⟨set, rest, hsplit, hcount.tail (not_lt.mp hseq)⟩
  · rw [if_neg (by simpa [hneg] using hslot)]
    refine iff_of_false C.ok_ne_error ?_
    rintro ⟨hmarked, set, rest, -, hcount⟩
    exact hslot ⟨hcount.seq_eq.1, hmarked⟩

/-! ## The loop over what is not listed -/

/-- A marked entry of a long name is neither passed over nor the last one. -/
theorem marked_listed {e : FatDirent} (hattr : e.attr = 0x0F) (hmarked : e.id &&& 0xF0 = 0x40) :
    e.isIgnored = false ∧ e.id ≠ 0 := by
  have hid : ∀ c : UInt8, c &&& 0xF0 ≠ 0x40 → e.id ≠ c := by
    rintro c hc rfl
    exact hc hmarked
  have hdeleted := hid 0xe5 (by decide)
  have hdot := hid 46 (by decide)
  refine ⟨?_, hid 0 (by decide)⟩
  simp [FatDirent.isIgnored, hattr, hdeleted, hdot]

theorem walkList_ignored_error : ∀ (es : List FatDirent) (f : Fault),
    walkList ignoredBody () es ≠ .error f := by
  intro es
  induction es with
  | nil => exact fun f h => nomatch h
  | cons e es ih =>
      intro f h
      rw [walkList, ignoredBody] at h
      cases hignored : e.isIgnored with
      | true =>
          rw [hignored] at h
          exact ih f h
      | false =>
          rw [hignored] at h
          cases h

/-- The loop is left at the first entry that is listed. -/
theorem walkList_ignored_here : ∀ {es : List FatDirent} {r : Unit × FatDirent},
    walkList ignoredBody () es = .ok (.here r []) ↔
      ∃ ignored, es = ignored ++ [r.2] ∧ (∀ dep ∈ ignored, dep.isIgnored = true) ∧
        r.2.isIgnored = false := by
  intro es
  induction es with
  | nil =>
      intro r
      refine iff_of_false nofun ?_
      rintro ⟨ignored, hsplit, -⟩
      exact absurd hsplit (by simp)
  | cons e es ih =>
      rintro ⟨⟨⟩, dep⟩
      rw [walkList, ignoredBody]
      cases hignored : e.isIgnored with
      | true =>
          refine ih.trans ⟨?_, ?_⟩
          · rintro ⟨ignored, rfl, hall, hlisted⟩
            exact ⟨e :: ignored, rfl, List.forall_mem_cons.mpr ⟨hignored, hall⟩, hlisted⟩
          · rintro ⟨_ | ⟨e', ignored⟩, hsplit, hall, hlisted⟩
            · obtain ⟨rfl, -⟩ := List.cons.inj hsplit
              exact absurd (hignored.symm.trans hlisted) (by decide)
            · obtain ⟨-, rfl⟩ := List.cons.inj hsplit
              exact ⟨ignored, rfl, (List.forall_mem_cons.mp hall).2, hlisted⟩
      | false =>
          constructor
          · intro h
            obtain ⟨rfl, rfl⟩ : e = dep ∧ es = [] := by
              simpa using h
            exact ⟨[], rfl, fun _ h => absurd h List.not_mem_nil, hignored⟩
          · rintro ⟨_ | ⟨e', ignored⟩, hsplit, hall, -⟩
            · obtain ⟨rfl, rfl⟩ := List.cons.inj hsplit
              rfl
            · obtain ⟨rfl, -⟩ := List.cons.inj hsplit
              exact absurd (hignored.symm.trans (hall e List.mem_cons_self)) (by decide)

/-! ## A call -/

variable {fs : LibfatFilesystem}

theorem noName_length : noName.length = nameSize := List.length_replicate

/-- A call that faults has come to an entry with the number 0. -/
theorem wild_of_fault {fuel : ℕ} {dp : Dirpos}
    (h : libfatDumpdir fs fuel dp = .error .outOfBounds) : fs.Wild dp := by
  rw [libfatDumpdir] at h
  cases hfirst : fs.firstDirent dp with
  | none =>
      rw [LibfatFilesystem.firstDirent] at hfirst
      rw [hfirst] at h
      cases h
  | some first =>
      obtain ⟨dep, dp₁⟩ := first
      have hread := hfirst
      rw [LibfatFilesystem.firstDirent] at hread
      rw [hread] at h
      rcases Reached.bind_eq_error.mp h with hwalk | ⟨⟨⟨⟩, e⟩, dp₂, hwalk, h⟩
      · obtain ⟨as, -, -, hlist⟩ := readsTo_of_walk_error (by decide) hwalk
        exact absurd hlist (walkList_ignored_error _ _)
      dsimp only at h
      split at h
      case isTrue => cases h
      case isFalse =>
      rcases Reached.bind_eq_error.mp h with hlong | ⟨_, _, _, h⟩
      · obtain ⟨as₁, hreads₁, hlist₁⟩ := readsTo_of_walk_here hwalk
        obtain ⟨ignored, hsplit₁, hall, -⟩ := walkList_ignored_here.mp hlist₁
        obtain ⟨as₂, dp₃, hreads₂, hlist₂⟩ := readsTo_of_walk_error (by decide) hlong
        obtain ⟨hmarked, set, rest, rfl, hcount⟩ :=
          (longName_first_fault_iff noName_length).mp hlist₂
        refine ⟨ignored, e, set, ⟨dep, dp₁, as₁ ++ (set ++ rest), dp₃, hfirst,
          hreads₁.append hreads₂, rest, ?_⟩, hall, hmarked, hcount⟩
        rw [← List.cons_append, hsplit₁]
        simp
      · cases h

/-- A call that comes to one faults, with fuel enough. -/
theorem fault_of_wild {dp : Dirpos} (h : fs.Wild dp) :
    ∃ fuel, libfatDumpdir fs fuel dp = .error .outOfBounds := by
  obtain ⟨ignored, e, set, ⟨dep, dp₁, read, dp₃, hfirst, hreads, rest, hsplit⟩, hall, hmarked,
    hcount⟩ := h
  obtain ⟨hlisted, hid⟩ := marked_listed hcount.seq_eq.1 hmarked
  rw [LibfatFilesystem.firstDirent] at hfirst
  obtain ⟨as₁, hfront, hread⟩ : ∃ as₁, dep :: as₁ = ignored ++ [e] ∧ read = as₁ ++ (set ++ rest) := by
    cases ignored with
    | nil =>
        obtain ⟨rfl, rfl⟩ := List.cons.inj hsplit
        exact ⟨[], rfl, rfl⟩
    | cons e' ignored =>
        obtain ⟨rfl, rfl⟩ := List.cons.inj hsplit
        exact ⟨ignored ++ [e], rfl, by simp⟩
  subst hread
  obtain ⟨dp₂, hreads₁, hreads₂⟩ := hreads.of_append
  refine ⟨(as₁ ++ (set ++ rest)).length + 1, ?_⟩
  have hwalk : walk fs.getNextDirent ignoredBody ((as₁ ++ (set ++ rest)).length + 1) () dep dp₁ =
      .ok (.here ((), e) dp₂) := by
    refine (walk_of_readsTo hreads₁ ?_).2 ((), e) ?_
    · simp only [List.length_append]
      omega
    · rw [hfront]
      exact walkList_ignored_here.mpr ⟨ignored, rfl, hall, hlisted⟩
  have hlong : walk fs.getNextDirent longNameBody ((as₁ ++ (set ++ rest)).length + 1)
      (-1, noName) e dp₂ = .error .outOfBounds := by
    refine (walk_of_readsTo hreads₂ ?_).1 _ ?_
    · simp only [List.length_append]
      omega
    · exact (longName_first_fault_iff noName_length).mpr ⟨hmarked, set, rest, rfl, hcount⟩
  rw [libfatDumpdir, hfirst]
  refine Reached.bind_eq_error.mpr (.inr ⟨_, _, hwalk, ?_⟩)
  dsimp only
  rw [if_neg hid]
  exact Reached.bind_eq_error.mpr (.inl hlong)

/-- The buffer of an item has its size. -/
theorem libfatDumpdir_name {fuel : ℕ} {dp dp' : Dirpos} {call : Int32 × LibfatDiritem}
    (h : libfatDumpdir fs fuel dp = .ok (.here call dp')) : call.2.name.length = nameSize := by
  rw [libfatDumpdir] at h
  split at h
  case h_1 => cases h
  case h_2 =>
  obtain ⟨⟨⟨⟩, e⟩, dp₂, -, h⟩ := Reached.bind_eq_here h
  dsimp only at h
  split at h
  case isTrue => cases h
  case isFalse =>
  obtain ⟨⟨⟨j, name⟩, e'⟩, dp₃, hlong, h⟩ := Reached.bind_eq_here h
  obtain ⟨as, -, hlist⟩ := readsTo_of_walk_here hlong
  have hname : name.length = nameSize := (walkList_shortEnough .noName hlist).length
  have hshort := shortNameOf_length e'
  simp only [Except.ok.injEq, Reached.here.injEq] at h
  rw [← h.1]
  show (diritemOf name e').2.name.length = nameSize
  simp only [diritemOf]
  split
  case isTrue =>
    rw [List.length_append, List.length_drop, List.length_set, hname, nameSize]
    omega
  case isFalse => rw [List.length_set, hname]

theorem inBounds_iff (dp : Dirpos) : fs.InBounds dp ↔ ¬fs.Wild dp := by
  constructor
  · intro h hwild
    obtain ⟨fuel, hfault⟩ := fault_of_wild hwild
    exact (h fuel).1 hfault
  · intro h fuel
    exact ⟨fun hfault => h (wild_of_fault hfault), fun call dp' => libfatDumpdir_name⟩

/-- In a run over a directory no call writes outside of the name buffer exactly
if none comes to an entry with the number 0 by counting down. -/
theorem libfatDumpdir_inBounds_iff (fs : LibfatFilesystem) (cluster : Int32) :
    (∀ dp, fs.DumpRun cluster dp → fs.InBounds dp) ↔ ∀ dp, fs.DumpRun cluster dp → ¬fs.Wild dp :=
  forall₂_congr fun dp _ => inBounds_iff dp

def zeroEntry : FatDirent :=
  0x40 :: List.replicate 10 0 ++ 0x0F :: List.replicate 20 0

theorem zeroSector_length : (zeroEntry ++ List.replicate 480 0).length = 512 := by
  rw [List.length_append, List.length_replicate]
  rfl

/-- In a directory that begins with it the first call writes beyond the
buffer. -/
theorem libfatDumpdir_wild : ∃ fs : LibfatFilesystem, ∃ dp, fs.DumpRun 0 dp ∧
    ∃ fuel, libfatDumpdir fs fuel dp = .error .outOfBounds := by
  let fs := rootOnly (zeroEntry ++ List.replicate 480 0) zeroSector_length
  have hfirst : fs.firstDirent ⟨0, -1, 0⟩ = some (zeroEntry, ⟨0, 0, 1⟩) := by
    have hread : fs.firstDirent ⟨0, -1, 0⟩ = some
        (LibfatFilesystem.direntAt (zeroEntry ++ List.replicate 480 0) 0, ⟨0, 0, 1⟩) := rfl
    rw [hread, LibfatFilesystem.direntAt, List.drop_zero,
      List.take_left' (show zeroEntry.length = 32 from rfl)]
  have hwild : fs.Wild ⟨0, -1, 0⟩ :=
    ⟨[], zeroEntry, [], ⟨zeroEntry, _, [], _, hfirst, .nil _, List.prefix_rfl⟩,
      fun _ h => absurd h List.not_mem_nil, rfl, .zero rfl rfl⟩
  exact ⟨fs, ⟨0, -1, 0⟩, .start, fault_of_wild hwild⟩

end Nawam
