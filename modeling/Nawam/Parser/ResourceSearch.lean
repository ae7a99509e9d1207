import Mathlib.Data.Finite.Prod
import Mathlib.Data.Set.Finite.Basic
import Mathlib.Order.Interval.Finset.Nat
import Nawam.Base.Ensures
import Nawam.Base.Recursion
import Nawam.Parser.PeDirectories

/-!
# The search for a resource

Whether `FindResourceRva` of `parser.c` comes to an end. It calls itself for the
directories of a directory, wherever their offsets lead. `entryStep` is what the
loop does about an entry, and the loop is put together from it
(`resourceLoop_succ`). A directory that is gone through without an address
(`Passes`) leaves the search to the entries behind it; one that is entered
(`Enters`) is searched first. There are finitely many offsets, so the calls nest
without end exactly if a directory is entered again while it is searched.
-/

namespace Nawam

/-- What the loop does about an entry: pass over it, search a directory with the
flag as it is then, or return a data entry. -/
inductive EntryStep where
  | skip
  | sub (dir : ℕ) (found : Bool)
  | data (rva size : ℕ)

section

variable (buf : List UInt8) (name : List UInt16) (root : ℕ)

/-- An entry that is not passed over for its name -/
def followStep (entry : ℕ) (found : Bool) : C EntryStep := do
  let offset ← loadLE buf (entry + 4) 4
  if 2 ^ 31 ≤ offset then return .sub (root + offset % 2 ^ 31) found
  else if found then
    let size ← loadLE buf (root + offset + 4) 4
    let rva ← loadLE buf (root + offset) 4
    return .data rva size
  else return .skip

/-- Entry `i` of a directory with so many named ones -/
def entryStep (dir named i : ℕ) (found : Bool) : C EntryStep := do
  let entry := dir + 16 + 8 * i
  if !found && i < named then
    if ← entryNamed buf name root entry then followStep buf root entry true
    else return .skip
  else followStep buf root entry found

end

section

variable {buf : List UInt8} {name : List UInt16} {root dir named n i : ℕ} {found : Bool}
  {sub sub' : ℕ → Bool → C ResourceRva}

/-- Nothing is passed over once the name has been found. -/
theorem followEntry_eq {entry : ℕ} {next : Bool → C ResourceRva} {skipped : C ResourceRva}
    (hskip : found = false → skipped = next false) :
    followEntry buf root entry sub next found = (do
      match ← followStep buf root entry found with
      | .skip => skipped
      | .sub d f => do
          let r ← sub d f
          if r.rva ≠ 0 then return r else next r.found
      | .data rva size => return ⟨rva, size, true⟩) := by
  rw [followEntry, followStep]
  cases loadLE buf (entry + 4) 4 with
  | error e => rfl
  | ok offset =>
      rw [C.ok_bind, C.ok_bind]
      split
      case isTrue => rfl
      case isFalse =>
          cases found with
          | false => exact (hskip rfl).symm
          | true =>
              simp only [if_true]
              cases loadLE buf (root + offset + 4) 4 with
              | error e => rfl
              | ok size =>
                  rw [C.ok_bind, C.ok_bind]
                  cases loadLE buf (root + offset) 4 with
                  | error e => rfl
                  | ok rva => rfl

theorem loadLE_ne_outOfFuel (mem : List UInt8) (k m : ℕ) :
    loadLE mem k m ≠ .error .outOfFuel := by
  rw [loadLE, loadN]
  split
  case isTrue => exact C.ok_ne_error
  case isFalse => rintro ⟨⟩

theorem bind_ne_outOfFuel {α β : Type} {x : C α} {f : α → C β} (hx : x ≠ .error .outOfFuel)
    (hf : ∀ a, f a ≠ .error .outOfFuel) : x >>= f ≠ .error .outOfFuel := by
  cases x with
  | error e => exact fun h => hx (by cases h; rfl)
  | ok a => exact hf a

theorem entryStep_ne_outOfFuel :
    entryStep buf name root dir named i found ≠ .error .outOfFuel := by
  have hfollow (entry : ℕ) (f : Bool) : followStep buf root entry f ≠ .error .outOfFuel := by
    refine bind_ne_outOfFuel (loadLE_ne_outOfFuel _ _ _) fun offset => ?_
    split
    case isTrue => exact C.ok_ne_error
    case isFalse =>
        split
        case isTrue =>
            exact bind_ne_outOfFuel (loadLE_ne_outOfFuel _ _ _) fun size =>
              bind_ne_outOfFuel (loadLE_ne_outOfFuel _ _ _) fun rva => C.ok_ne_error
        case isFalse => exact C.ok_ne_error
  have hname (entry : ℕ) : entryNamed buf name root entry ≠ .error .outOfFuel := by
    refine bind_ne_outOfFuel (loadLE_ne_outOfFuel _ _ _) fun offset =>
      bind_ne_outOfFuel (loadLE_ne_outOfFuel _ _ _) fun length => ?_
    split
    case isTrue => exact C.ok_ne_error
    case isFalse =>
        refine bind_ne_outOfFuel ?_ fun chars => C.ok_ne_error
        rw [loadN]
        split
        case isTrue => exact C.ok_ne_error
        case isFalse => rintro ⟨⟩
  rw [entryStep]
  split
  case isTrue =>
      refine bind_ne_outOfFuel (hname _) fun isName => ?_
      cases isName with
      | false => exact C.ok_ne_error
      | true => exact hfollow _ true
  case isFalse => exact hfollow _ found

/-- **The loop, entry by entry.** -/
theorem resourceLoop_succ :
    resourceLoop buf name root dir named sub (n + 1) i found = (do
      match ← entryStep buf name root dir named i found with
      | .skip => resourceLoop buf name root dir named sub n (i + 1) found
      | .sub d f => do
          let r ← sub d f
          if r.rva ≠ 0 then return r
          else resourceLoop buf name root dir named sub n (i + 1) r.found
      | .data rva size => return ⟨rva, size, true⟩) := by
  rw [resourceLoop, entryStep]
  split
  case isTrue hcond =>
      have hfound : found = false := by simpa using (Bool.and_eq_true_iff.mp hcond).1
      cases entryNamed buf name root (dir + 16 + 8 * i) with
      | error e => rfl
      | ok isName =>
          rw [C.ok_bind, C.ok_bind]
          cases isName with
          | false => rfl
          | true =>
              simp only [if_true]
              exact followEntry_eq nofun
  case isFalse => exact followEntry_eq fun h => by rw [h]

end

/-! ## Going through a directory -/

section

variable (buf : List UInt8) (name : List UInt16) (root : ℕ)

/-- The counts in the header of a directory, of the named entries and of all -/
def Counts (dir named count : ℕ) : Prop :=
  loadLE buf (dir + 12) 2 = .ok named ∧
    ∃ ids, loadLE buf (dir + 14) 2 = .ok ids ∧ count = named + ids

/-- `FoundResourceRva` when the search of a directory begins. -/
def flagAt (dir : ℕ) (found : Bool) : Bool := if dir = root then false else found

/-- The entries of a directory from `i` on, `n` of them, are gone through without
an address. The flag is `found` before, and `found'` behind them. -/
inductive Passes : (dir named n i : ℕ) → (found found' : Bool) → Prop where
  | nil {dir named i : ℕ} {found : Bool} : Passes dir named 0 i found found
  | skip {dir named n i : ℕ} {found found' : Bool} :
      entryStep buf name root dir named i found = .ok .skip →
      Passes dir named n (i + 1) found found' → Passes dir named (n + 1) i found found'
  /-- an address of zero ends the search of the directory only -/
  | zero {dir named n i : ℕ} {found : Bool} (size : ℕ) :
      entryStep buf name root dir named i found = .ok (.data 0 size) →
      Passes dir named (n + 1) i found true
  | sub {dir named n i d subNamed count : ℕ} {found f g found' : Bool} :
      entryStep buf name root dir named i found = .ok (.sub d f) →
      Counts buf d subNamed count → Passes d subNamed count 0 (flagAt root d f) g →
      Passes dir named n (i + 1) g found' → Passes dir named (n + 1) i found found'

/-- Among the entries from `i` on, the search comes to one that leads it to the
directory `d`, with the flag `f`. -/
inductive Enters : (dir named n i : ℕ) → (found : Bool) → (d : ℕ) → (f : Bool) → Prop where
  | here {dir named n i d : ℕ} {found f : Bool} :
      entryStep buf name root dir named i found = .ok (.sub d f) →
      Enters dir named (n + 1) i found d f
  | skip {dir named n i d : ℕ} {found f : Bool} :
      entryStep buf name root dir named i found = .ok .skip →
      Enters dir named n (i + 1) found d f → Enters dir named (n + 1) i found d f
  | past {dir named n i d d' subNamed count : ℕ} {found f f' g : Bool} :
      entryStep buf name root dir named i found = .ok (.sub d' f') →
      Counts buf d' subNamed count → Passes buf name root d' subNamed count 0
        (flagAt root d' f') g →
      Enters dir named n (i + 1) g d f → Enters dir named (n + 1) i found d f

/-- The call for a directory, with the flag as it is then, makes another one. -/
def Calls (s t : ℕ × Bool) : Prop :=
  ∃ named count, Counts buf s.1 named count ∧
    Enters buf name root s.1 named count 0 (flagAt root s.1 s.2) t.1 t.2

end

section

variable {buf : List UInt8} {name : List UInt16} {root dir named n i fuel : ℕ} {found : Bool}

theorem findResourceRva_counts {count : ℕ} (h : Counts buf dir named count) :
    findResourceRva buf name root (fuel + 1) dir found
      = resourceLoop buf name root dir named (findResourceRva buf name root fuel) count 0
        (flagAt root dir found) := by
  obtain ⟨hnamed, ids, hids, rfl⟩ := h
  rw [findResourceRva, hnamed, C.ok_bind, hids, C.ok_bind]
  rfl

/-- A directory has its counts, or the call faults at once. -/
theorem counts_or_fault (buf : List UInt8) (name : List UInt16) (root dir : ℕ) :
    (∃ named count, Counts buf dir named count) ∨
      ∀ fuel found, findResourceRva buf name root (fuel + 1) dir found
        = .error .outOfBounds := by
  have hfail {i n : ℕ} (h : ¬i + n ≤ buf.length) : loadLE buf i n = .error .outOfBounds := by
    rw [loadLE, loadN, if_neg h]
    rfl
  by_cases hnamed : dir + 12 + 2 ≤ buf.length
  · by_cases hids : dir + 14 + 2 ≤ buf.length
    · exact .inl ⟨_, _, loadLE_of_le hnamed, _, loadLE_of_le hids, rfl⟩
    · refine .inr fun fuel found => ?_
      rw [findResourceRva, loadLE_of_le hnamed, C.ok_bind, hfail hids]
      rfl
  · refine .inr fun fuel found => ?_
    rw [findResourceRva, hfail hnamed]
    rfl

/-- A loop that does not go without end for its calls does the same with calls
that come to the same. -/
theorem resourceLoop_mono {sub sub' : ℕ → Bool → C ResourceRva}
    (hsub : ∀ d f, sub d f ≠ .error .outOfFuel → sub' d f = sub d f) :
    ∀ {n i : ℕ} {found : Bool},
      resourceLoop buf name root dir named sub n i found ≠ .error .outOfFuel →
      resourceLoop buf name root dir named sub' n i found
        = resourceLoop buf name root dir named sub n i found
  | 0, _, _, _ => rfl
  | n + 1, i, found, h => by
      rw [resourceLoop_succ] at h
      rw [resourceLoop_succ, resourceLoop_succ]
      cases hstep : entryStep buf name root dir named i found with
      | error e => rfl
      | ok step =>
          rw [hstep, C.ok_bind] at h
          rw [C.ok_bind, C.ok_bind]
          cases step with
          | skip => exact resourceLoop_mono hsub h
          | data rva size => rfl
          | sub d f =>
              dsimp only at h ⊢
              cases hrun : sub d f with
              | error e =>
                  have hne : sub d f ≠ .error .outOfFuel := by
                    rintro heq
                    rw [heq] at h
                    exact h rfl
                  rw [hsub d f hne, hrun]
                  rfl
              | ok r =>
                  rw [hrun, C.ok_bind] at h
                  rw [hsub d f (by rw [hrun]; nofun), hrun, C.ok_bind, C.ok_bind]
                  split
                  case isTrue => rfl
                  case isFalse hzero =>
                      rw [if_neg hzero] at h
                      exact resourceLoop_mono hsub h

theorem findResourceRva_succ : ∀ {fuel dir : ℕ} {found : Bool},
    findResourceRva buf name root fuel dir found ≠ .error .outOfFuel →
    findResourceRva buf name root (fuel + 1) dir found
      = findResourceRva buf name root fuel dir found
  | 0, _, _, h => absurd rfl h
  | fuel + 1, dir, found, h => by
      rcases counts_or_fault buf name root dir with ⟨named, count, hcounts⟩ | hfault
      · rw [findResourceRva_counts hcounts] at h
        rw [findResourceRva_counts hcounts, findResourceRva_counts hcounts]
        exact resourceLoop_mono (fun d f => findResourceRva_succ) h
      · rw [hfault, hfault]

/-- With more depth a call comes to the same. -/
theorem findResourceRva_mono {fuel' : ℕ} (hle : fuel ≤ fuel')
    (h : findResourceRva buf name root fuel dir found ≠ .error .outOfFuel) :
    findResourceRva buf name root fuel' dir found
      = findResourceRva buf name root fuel dir found := by
  induction hle with
  | refl => rfl
  | step _ ih => rw [findResourceRva_succ (ih ▸ h), ih]

/-! ## What is gone through comes back without an address -/

/-- The calls are deep enough for the loop. -/
theorem passes_run {n i : ℕ} {found found' : Bool}
    (h : Passes buf name root dir named n i found found') :
    ∃ fuel r, r.rva = 0 ∧ r.found = found' ∧
      resourceLoop buf name root dir named (findResourceRva buf name root fuel) n i found
        = .ok r := by
  induction h with
  | nil => exact ⟨0, ⟨0, 0, _⟩, rfl, rfl, rfl⟩
  | skip hstep _ ih =>
      obtain ⟨fuel, r, hrva, hfound, hrun⟩ := ih
      refine ⟨fuel, r, hrva, hfound, ?_⟩
      rw [resourceLoop_succ, hstep]
      exact hrun
  | zero size hstep =>
      refine ⟨0, ⟨0, size, true⟩, rfl, rfl, ?_⟩
      rw [resourceLoop_succ, hstep]
      rfl
  | sub hstep hcounts _ _ ihsub ihnext =>
      rename_i d _ _ _ f _ _ _ _
      obtain ⟨fuel₁, r₁, hrva₁, rfl, hrun₁⟩ := ihsub
      obtain ⟨fuel₂, r₂, hrva₂, hfound₂, hrun₂⟩ := ihnext
      have hcall : findResourceRva buf name root (fuel₁ + 1) d f = .ok r₁ := by
        rw [findResourceRva_counts hcounts, hrun₁]
      have hdeep : findResourceRva buf name root (max (fuel₁ + 1) fuel₂) d f = .ok r₁ := by
        rw [findResourceRva_mono (Nat.le_max_left ..) (by rw [hcall]; nofun), hcall]
      refine ⟨max (fuel₁ + 1) fuel₂, r₂, hrva₂, hfound₂, ?_⟩
      rw [resourceLoop_succ, hstep, C.ok_bind]
      dsimp only
      rw [hdeep, C.ok_bind, if_neg (not_not.mpr hrva₁), ← hrun₂]
      refine resourceLoop_mono (fun d f hne => ?_) (by rw [hrun₂]; nofun)
      exact findResourceRva_mono (Nat.le_max_right ..) hne

/-- A call whose directory is gone through -/
theorem passes_call {d subNamed count : ℕ} {f g : Bool} (hcounts : Counts buf d subNamed count)
    (h : Passes buf name root d subNamed count 0 (flagAt root d f) g)
    (hne : findResourceRva buf name root fuel d f ≠ .error .outOfFuel) :
    ∃ r, r.rva = 0 ∧ r.found = g ∧ findResourceRva buf name root fuel d f = .ok r := by
  obtain ⟨fuel', r, hrva, hfound, hrun⟩ := passes_run h
  have hcall : findResourceRva buf name root (fuel' + 1) d f = .ok r := by
    rw [findResourceRva_counts hcounts, hrun]
  refine ⟨r, hrva, hfound, ?_⟩
  rw [← findResourceRva_mono (Nat.le_max_left fuel (fuel' + 1)) hne,
    findResourceRva_mono (Nat.le_max_right fuel (fuel' + 1)) (by rw [hcall]; nofun), hcall]

/-- And a loop that comes back without an address has gone through the entries. -/
theorem loop_passes {sub : ℕ → Bool → C ResourceRva}
    (hsub : ∀ d f r, sub d f = .ok r → r.rva = 0 → ∃ subNamed count,
      Counts buf d subNamed count ∧
        Passes buf name root d subNamed count 0 (flagAt root d f) r.found) :
    ∀ {n i : ℕ} {found : Bool} {r : ResourceRva},
      resourceLoop buf name root dir named sub n i found = .ok r → r.rva = 0 →
      Passes buf name root dir named n i found r.found
  | 0, i, found, r, hrun, _ => by
      cases hrun
      exact .nil
  | n + 1, i, found, r, hrun, hrva => by
      rw [resourceLoop_succ] at hrun
      obtain ⟨step, hstep, hrun⟩ := C.bind_eq_ok.mp hrun
      cases step with
      | skip => exact .skip hstep (loop_passes hsub hrun hrva)
      | data rva size =>
          cases hrun
          obtain rfl : rva = 0 := hrva
          exact .zero size hstep
      | sub d f =>
          obtain ⟨r₁, hcall, hrun⟩ := C.bind_eq_ok.mp hrun
          split at hrun
          case isTrue hne =>
              cases hrun
              exact absurd hrva hne
          case isFalse hzero =>
              obtain ⟨subNamed, count, hcounts, hpasses⟩ := hsub d f r₁ hcall (not_not.mp hzero)
              exact .sub hstep hcounts hpasses (loop_passes hsub hrun hrva)

theorem call_passes : ∀ {fuel d : ℕ} {f : Bool} {r : ResourceRva},
    findResourceRva buf name root fuel d f = .ok r → r.rva = 0 → ∃ subNamed count,
      Counts buf d subNamed count ∧
        Passes buf name root d subNamed count 0 (flagAt root d f) r.found
  | fuel + 1, d, f, r, hrun, hrva => by
      rcases counts_or_fault buf name root d with ⟨subNamed, count, hcounts⟩ | hfault
      · rw [findResourceRva_counts hcounts] at hrun
        exact ⟨subNamed, count, hcounts,
          loop_passes (fun _ _ _ hcall hzero => call_passes hcall hzero) hrun hrva⟩
      · rw [hfault] at hrun
        cases hrun

/-! ## The calls -/

/-- A directory that the loop comes to is searched, one call deeper. -/
theorem enters_run {d : ℕ} {f : Bool}
    (h : Enters buf name root dir named n i found d f)
    (hne : resourceLoop buf name root dir named (findResourceRva buf name root fuel) n i found
      ≠ .error .outOfFuel) :
    findResourceRva buf name root fuel d f ≠ .error .outOfFuel := by
  induction h with
  | here hstep =>
      intro heq
      rw [resourceLoop_succ, hstep, C.ok_bind] at hne
      dsimp only at hne
      rw [heq] at hne
      exact hne rfl
  | skip hstep _ ih =>
      rw [resourceLoop_succ, hstep] at hne
      exact ih hne
  | past hstep hcounts hpasses _ ih =>
      rw [resourceLoop_succ, hstep, C.ok_bind] at hne
      dsimp only at hne
      have hcall := @passes_call buf name root fuel _ _ _ _ _ hcounts hpasses fun heq => by
        rw [heq] at hne
        exact hne rfl
      obtain ⟨r, hrva, rfl, hrun⟩ := hcall
      rw [hrun, C.ok_bind, if_neg (not_not.mpr hrva)] at hne
      exact ih hne

/-- A loop comes to its end where all the calls do that it makes. -/
theorem exists_loop_end : ∀ {n i : ℕ} {found : Bool},
    (∀ d f, Enters buf name root dir named n i found d f →
      ∃ fuel, findResourceRva buf name root fuel d f ≠ .error .outOfFuel) →
    ∃ fuel, resourceLoop buf name root dir named (findResourceRva buf name root fuel) n i found
      ≠ .error .outOfFuel
  | 0, _, _, _ => ⟨0, nofun⟩
  | n + 1, i, found, h => by
      simp only [resourceLoop_succ]
      cases hstep : entryStep buf name root dir named i found with
      | error e =>
          refine ⟨0, fun heq => ?_⟩
          rw [C.error_bind] at heq
          cases heq
          exact entryStep_ne_outOfFuel hstep
      | ok step =>
          simp only [C.ok_bind]
          cases step with
          | skip => exact exists_loop_end fun d f hd => h d f (.skip hstep hd)
          | data rva size => exact ⟨0, nofun⟩
          | sub d f =>
              obtain ⟨fuel₁, hne₁⟩ := h d f (.here hstep)
              cases hcall : findResourceRva buf name root fuel₁ d f with
              | error e =>
                  refine ⟨fuel₁, ?_⟩
                  dsimp only
                  rw [hcall] at hne₁ ⊢
                  exact hne₁
              | ok r =>
                  by_cases hrva : r.rva = 0
                  · obtain ⟨subNamed, count, hcounts, hpasses⟩ := call_passes hcall hrva
                    obtain ⟨fuel₂, hne₂⟩ := exists_loop_end fun d' f' hd =>
                      h d' f' (.past hstep hcounts hpasses hd)
                    refine ⟨max fuel₁ fuel₂, ?_⟩
                    dsimp only
                    rw [findResourceRva_mono (Nat.le_max_left ..) hne₁, hcall, C.ok_bind,
                      if_neg (not_not.mpr hrva), resourceLoop_mono (fun d f =>
                        findResourceRva_mono (Nat.le_max_right ..)) hne₂]
                    exact hne₂
                  · refine ⟨fuel₁, ?_⟩
                    dsimp only
                    rw [hcall, C.ok_bind, if_pos hrva]
                    nofun

/-! ## The end of the search -/

/-- A search ends if its calls nest finitely deep. -/
theorem exists_call_end_iff_acc (d : ℕ) (f : Bool) :
    (∃ fuel, findResourceRva buf name root fuel d f ≠ .error .outOfFuel) ↔
      Acc (flip (Calls buf name root)) (d, f) := by
  refine @exists_ends_iff_acc _ (Calls buf name root) (d, f)
    (fun fuel s => findResourceRva buf name root fuel s.1 s.2 ≠ .error .outOfFuel)
    (fun s h => h rfl) ?_ ?_
  · rintro fuel s t hne ⟨subNamed, count, hcounts, henters⟩
    rw [findResourceRva_counts hcounts] at hne
    exact enters_run henters hne
  · intro s h
    rcases counts_or_fault buf name root s.1 with ⟨subNamed, count, hcounts⟩ | hfault
    · obtain ⟨fuel, hne⟩ := exists_loop_end fun d' f' hd =>
        h (d', f') ⟨subNamed, count, hcounts, hd⟩
      refine ⟨fuel + 1, ?_⟩
      rwa [findResourceRva_counts hcounts]
    · refine ⟨1, ?_⟩
      rw [hfault]
      nofun

/-- A directory is at one of the offsets that an entry can hold. -/
theorem entryStep_sub {d : ℕ} {f : Bool}
    (h : entryStep buf name root dir named i found = .ok (.sub d f)) :
    d < root + 2 ^ 31 := by
  have hfollow {entry : ℕ} {g : Bool} (h : followStep buf root entry g = .ok (.sub d f)) :
      d < root + 2 ^ 31 := by
    obtain ⟨offset, -, h⟩ := C.bind_eq_ok.mp h
    split at h
    case isTrue =>
        cases h
        exact Nat.add_lt_add_left (Nat.mod_lt _ (by decide)) root
    case isFalse =>
        split at h
        case isTrue =>
            obtain ⟨size, -, h⟩ := C.bind_eq_ok.mp h
            obtain ⟨rva, -, h⟩ := C.bind_eq_ok.mp h
            cases h
        case isFalse => cases h
  rw [entryStep] at h
  split at h
  case isTrue =>
      obtain ⟨isName, -, h⟩ := C.bind_eq_ok.mp h
      cases isName with
      | false => cases h
      | true => exact hfollow h
  case isFalse => exact hfollow h

theorem enters_lt {d : ℕ} {f : Bool} (h : Enters buf name root dir named n i found d f) :
    d < root + 2 ^ 31 := by
  induction h with
  | here hstep => exact entryStep_sub hstep
  | skip _ _ ih => exact ih
  | past _ _ _ _ ih => exact ih

theorem finite_calls (s : ℕ × Bool) :
    {t | Relation.ReflTransGen (Calls buf name root) s t}.Finite := by
  have hoffsets : ({s} ∪ Set.Iio (root + 2 ^ 31) ×ˢ Set.univ : Set (ℕ × Bool)).Finite :=
    (Set.finite_singleton s).union ((Set.finite_Iio _).prod Set.finite_univ)
  refine hoffsets.subset fun t ht => ?_
  cases ht with
  | refl => exact .inl rfl
  | tail _ hcall =>
      obtain ⟨subNamed, count, -, henters⟩ := hcall
      exact .inr ⟨enters_lt henters, trivial⟩

end

/-- **The search comes to an end** if and only if none of the calls that it leads
to is made again while it is still being made. -/
theorem findResourceRva_ends_iff (buf : List UInt8) (name : List UInt16) (root dir : ℕ)
    (found : Bool) :
    (∃ fuel, findResourceRva buf name root fuel dir found ≠ .error .outOfFuel) ↔
      ¬LeadsToCycle (Calls buf name root) (dir, found) :=
  (exists_call_end_iff_acc dir found).trans (acc_iff_no_cycle (finite_calls _))

/-- It does where the entries of each directory lead to what stands behind it. -/
theorem no_cycle_of_forward {buf : List UInt8} {name : List UInt16} {root : ℕ}
    (hforward : ∀ dir named i found d f,
      entryStep buf name root dir named i found = .ok (.sub d f) → dir < d)
    (s : ℕ × Bool) : ¬LeadsToCycle (Calls buf name root) s := by
  have henters {dir named n i d : ℕ} {found f : Bool}
      (h : Enters buf name root dir named n i found d f) : dir < d := by
    induction h with
    | here hstep => exact hforward _ _ _ _ _ _ hstep
    | skip _ _ ih => exact ih
    | past _ _ _ _ ih => exact ih
  have hcall {s t : ℕ × Bool} (h : Calls buf name root s t) : s.1 < t.1 := by
    obtain ⟨_, _, -, h⟩ := h
    exact henters h
  rintro ⟨t, -, hcycle⟩
  have hlt {s t : ℕ × Bool} (h : Relation.TransGen (Calls buf name root) s t) : s.1 < t.1 := by
    induction h with
    | single h => exact hcall h
    | tail _ h ih => exact ih.trans (hcall h)
  exact lt_irrefl _ (hlt hcycle)

/-- A directory with one entry, which is the directory itself. -/
def selfDirectory : List UInt8 :=
  .replicate 14 0 ++ [1, 0] ++ [1, 0, 0, 0] ++ [0, 0, 0, 0x80]

/-- It is searched without end. -/
theorem findResourceRva_self_directory :
    ¬∃ fuel, findResourceRva selfDirectory [83, 86, 78] 0 fuel 0 false
      ≠ .error .outOfFuel := by
  rintro ⟨fuel, hne⟩
  refine hne ?_
  clear hne
  have hcounts : Counts selfDirectory 0 0 1 := ⟨by decide, 1, by decide, by decide⟩
  have hstep : entryStep selfDirectory [83, 86, 78] 0 0 0 0 false = .ok (.sub 0 false) := rfl
  induction fuel with
  | zero => rfl
  | succ fuel ih =>
      have hflag : flagAt 0 0 false = false := rfl
      rw [findResourceRva_counts hcounts, resourceLoop_succ, hflag, hstep, C.ok_bind]
      dsimp only
      rw [ih]
      rfl

end Nawam
