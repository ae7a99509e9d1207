import Nawam.Parser.ResourceSearch

/-!
# The resource that is found

What `FindResourceRva` of `parser.c` returns for a resource directory that is a
tree. What is due is the first data entry below an entry of the given name, in
the order of the search. The code compares the first half of the characters
only, and the flag that it has found the name stays when the entry turns out to
have no data. So what it takes is the first data entry from the first entry on
whose name is half the same, wherever that is (`behindName`). For which trees
that is right is said by cases of that first entry (`FirstIsDue`).
-/

namespace Nawam

/-! ## Trees -/

/-- The entries of a directory, which have a name or none -/
inductive ResourceEntries where
  | nil
  | data (name : Option (List UInt16)) (rva size : ℕ) (next : ResourceEntries)
  | dir (name : Option (List UInt16)) (sub next : ResourceEntries)
deriving DecidableEq

section

variable (buf : List UInt8) (root : ℕ)

/-- The name of entry `i` of a directory with so many named ones -/
def HasName (dir named i : ℕ) : Option (List UInt16) → Prop
  | none => named ≤ i
  | some name => i < named ∧ ∃ offset, loadLE buf (dir + 16 + 8 * i) 4 = .ok offset ∧
      loadLE buf (root + offset % 2 ^ 31) 2 = .ok name.length ∧
      loadN buf (root + offset % 2 ^ 31 + 2) (2 * name.length) = .ok (utf16Bytes name)

/-- The entries of a directory from `i` on, `n` of them, are such. All of them are
within the buffer, and none leads back to the root. -/
inductive HoldsEntries : (dir named n i : ℕ) → ResourceEntries → Prop where
  | nil {dir named i : ℕ} : HoldsEntries dir named 0 i .nil
  | data {dir named n i offset rva size : ℕ} {name : Option (List UInt16)}
      {next : ResourceEntries} :
      HasName buf root dir named i name →
      loadLE buf (dir + 16 + 8 * i + 4) 4 = .ok offset → offset < 2 ^ 31 →
      loadLE buf (root + offset) 4 = .ok rva → loadLE buf (root + offset + 4) 4 = .ok size →
      HoldsEntries dir named n (i + 1) next →
      HoldsEntries dir named (n + 1) i (.data name rva size next)
  | dir {dir named n i offset subNamed count : ℕ} {name : Option (List UInt16)}
      {sub next : ResourceEntries} :
      HasName buf root dir named i name →
      loadLE buf (dir + 16 + 8 * i + 4) 4 = .ok offset → 2 ^ 31 ≤ offset →
      offset % 2 ^ 31 ≠ 0 → Counts buf (root + offset % 2 ^ 31) subNamed count →
      HoldsEntries (root + offset % 2 ^ 31) subNamed count 0 sub →
      HoldsEntries dir named n (i + 1) next →
      HoldsEntries dir named (n + 1) i (.dir name sub next)

def HoldsTree (t : ResourceEntries) : Prop :=
  ∃ named count, Counts buf root named count ∧ HoldsEntries buf root root named count 0 t

end

namespace ResourceEntries

/-! ## What is due -/

/-- The address and the length of the data entries, in the order of the search -/
def leaves : ResourceEntries → List (ℕ × ℕ)
  | nil => []
  | data _ rva size next => (rva, size) :: next.leaves
  | dir _ sub next => sub.leaves ++ next.leaves

/-- Those below an entry of a name that is reached through numbered directories -/
def belowName (name : List UInt16) : ResourceEntries → List (ℕ × ℕ)
  | nil => []
  | data name' rva size next =>
      (if name' = some name then [(rva, size)] else []) ++ next.belowName name
  | dir none sub next => sub.belowName name ++ next.belowName name
  | dir (some name') sub next =>
      (if name' = name then sub.leaves else []) ++ next.belowName name

/-- What the search has to return: zero is no address. -/
def due (name : List UInt16) (t : ResourceEntries) : Option (ℕ × ℕ) :=
  (t.belowName name).head?.filter (·.1 ≠ 0)

/-! ## What is taken -/

/-- The comparison that the search makes -/
def HalfEqual (name' name : List UInt16) : Prop :=
  name'.length = name.length ∧
    (utf16Bytes name').take name.length = (utf16Bytes name).take name.length

instance (name' name : List UInt16) : Decidable (HalfEqual name' name) :=
  inferInstanceAs (Decidable (_ ∧ _))

/-- What is left of the directories from the first entry on whose name is half
the same, if there is one that is reached through numbered directories -/
def behindName (name : List UInt16) : ResourceEntries → List ResourceEntries
  | nil => []
  | data name' rva size next =>
      if ∃ n ∈ name', HalfEqual n name then [data name' rva size next]
      else next.behindName name
  | dir none sub next =>
      if sub.behindName name = [] then next.behindName name
      else sub.behindName name ++ [next]
  | dir (some name') sub next =>
      if HalfEqual name' name then [dir (some name') sub next] else next.behindName name

/-- The data entries that are taken once a name has been found: one without an
address ends its directory. -/
def taken : ResourceEntries → List (ℕ × ℕ)
  | nil => []
  | data _ rva size next => if rva = 0 then [] else (rva, size) :: next.taken
  | dir _ sub next => sub.taken ++ next.taken

def firstName : ResourceEntries → Option (List UInt16)
  | nil => none
  | data name _ _ _ => name
  | dir name _ _ => name

def firstLeaves : ResourceEntries → List (ℕ × ℕ)
  | nil => []
  | data _ rva size _ => [(rva, size)]
  | dir _ sub _ => sub.leaves

/-- The first of the entries has the name, and data below it. -/
def Starts (name : List UInt16) (first : ResourceEntries) : Prop :=
  first.firstName = some name ∧ first.firstLeaves ≠ []

/-- The trees whose search is right, by what the first entry is whose name is
half the same. -/
inductive FirstIsDue (name : List UInt16) (t : ResourceEntries) : Prop where
  | absent : t.behindName name = [] → FirstIsDue name t
  /-- It has the name, and an address below it in front of all other data. -/
  | named {first : ResourceEntries} {behind : List ResourceEntries} {a : ℕ × ℕ} :
      t.behindName name = first :: behind → first.firstName = some name →
      first.firstLeaves.head? = some a → a.1 ≠ 0 → FirstIsDue name t
  /-- It has the name, and data without an address; so none must be taken. -/
  | zero {first : ResourceEntries} {behind : List ResourceEntries} {a : ℕ × ℕ} :
      t.behindName name = first :: behind → first.firstName = some name →
      first.firstLeaves.head? = some a → a.1 = 0 →
      (∀ seg ∈ first :: behind, seg.taken = []) → FirstIsDue name t
  /-- It has another name, or no data: no address is taken, and none is due. -/
  | neither {first : ResourceEntries} {behind : List ResourceEntries} :
      t.behindName name = first :: behind → ¬first.Starts name →
      (∀ seg ∈ first :: behind, seg.taken = []) →
      (∀ a, (t.belowName name).head? = some a → a.1 = 0) → FirstIsDue name t
  /-- It has another name, or no data: the first address behind it is one that the
  first data entry below the name has too. -/
  | caught {first seg : ResourceEntries} {behind segs rest : List ResourceEntries}
      {a : ℕ × ℕ} :
      t.behindName name = first :: behind → ¬first.Starts name →
      first :: behind = segs ++ seg :: rest → (∀ s ∈ segs, s.taken = []) →
      seg.taken.head? = some a → (t.belowName name).head? = some a → FirstIsDue name t

/-! ## The search over a tree -/

def depth : ResourceEntries → ℕ
  | nil => 0
  | data _ _ _ next => next.depth
  | dir _ sub next => max (sub.depth + 1) next.depth

/-- The search over the entries of a directory: what it takes, and the flag
behind them -/
def search (name : List UInt16) : Bool → ResourceEntries → Option (ℕ × ℕ) × Bool
  | found, nil => (none, found)
  | found, data name' rva size next =>
      if found ∨ ∃ n ∈ name', HalfEqual n name then
        (if rva = 0 then none else some (rva, size), true)
      else next.search name found
  | found, dir name' sub next =>
      if found ∨ ∀ n ∈ name', HalfEqual n name then
        match sub.search name (found || name'.isSome) with
        | (some address, found) => (some address, found)
        | (none, found) => next.search name found
      else next.search name found

end ResourceEntries

open ResourceEntries

section

variable {buf : List UInt8} {name : List UInt16} {root dir named i offset : ℕ}
  {name' : Option (List UInt16)} {found : Bool}

theorem entryNamed_held {n : List UInt16} (h : HasName buf root dir named i (some n)) :
    entryNamed buf name root (dir + 16 + 8 * i) = .ok (decide (HalfEqual n name)) := by
  obtain ⟨-, offset, hoffset, hlength, hchars⟩ := h
  rw [entryNamed, hoffset, C.ok_bind]
  dsimp only
  rw [hlength, C.ok_bind]
  by_cases hlen : n.length = name.length
  · rw [if_neg (not_not.mpr hlen)]
    have hin : root + offset % 2 ^ 31 + 2 + 2 * n.length ≤ buf.length := by
      by_contra hout
      rw [loadN, if_neg hout] at hchars
      cases hchars
    rw [loadN_of_le hin, Except.ok.injEq] at hchars
    have hhalf : (buf.drop (root + offset % 2 ^ 31 + 2)).take name.length
        = (utf16Bytes n).take name.length := by
      rw [← hchars, List.take_take, Nat.min_eq_left (by omega)]
    rw [loadN_of_le (by omega), hhalf, C.ok_bind]
    simp [HalfEqual, hlen]
  · rw [if_pos hlen]
    simp [HalfEqual, hlen]

/-- An entry is passed over for its name, or it is followed with the flag set. -/
theorem entryStep_held (h : HasName buf root dir named i name') :
    entryStep buf name root dir named i found =
      if found = true ∨ ∀ n ∈ name', HalfEqual n name
      then followStep buf root (dir + 16 + 8 * i) (found || name'.isSome) else .ok .skip := by
  cases name' with
  | none =>
      have hid : ¬(!found && decide (i < named)) = true := by
        have hle : named ≤ i := h
        simp [hle]
      rw [entryStep, if_neg hid, if_pos (.inr (by rintro n ⟨⟩))]
      simp
  | some n =>
      have hlt : i < named := h.1
      cases found with
      | true => simp [entryStep]
      | false =>
          rw [entryStep, if_pos (by simpa using hlt), entryNamed_held h, C.ok_bind]
          by_cases hhalf : HalfEqual n name
          · simp [hhalf]
          · simp [hhalf]

theorem followStep_data {entry rva size : ℕ} (hoffset : loadLE buf (entry + 4) 4 = .ok offset)
    (hlt : offset < 2 ^ 31) (hrva : loadLE buf (root + offset) 4 = .ok rva)
    (hsize : loadLE buf (root + offset + 4) 4 = .ok size) :
    followStep buf root entry found = .ok (if found then .data rva size else .skip) := by
  rw [followStep, hoffset, C.ok_bind, if_neg (by omega)]
  cases found with
  | true => simp [hrva, hsize]
  | false => rfl

theorem followStep_dir {entry : ℕ} (hoffset : loadLE buf (entry + 4) 4 = .ok offset)
    (hle : 2 ^ 31 ≤ offset) :
    followStep buf root entry found = .ok (.sub (root + offset % 2 ^ 31) found) := by
  rw [followStep, hoffset, C.ok_bind, if_pos hle]
  rfl

/-- A data entry is returned if the name has been found. -/
theorem entryStep_data {rva size : ℕ} (h : HasName buf root dir named i name')
    (hoffset : loadLE buf (dir + 16 + 8 * i + 4) 4 = .ok offset)
    (hlt : offset < 2 ^ 31) (hrva : loadLE buf (root + offset) 4 = .ok rva)
    (hsize : loadLE buf (root + offset + 4) 4 = .ok size) :
    entryStep buf name root dir named i found = .ok
      (if found = true ∨ ∃ n ∈ name', HalfEqual n name then .data rva size else .skip) := by
  rw [entryStep_held h, followStep_data hoffset hlt hrva hsize]
  cases found with
  | true => simp
  | false =>
      cases name' with
      | none => simp
      | some n => simp [apply_ite]

end

/-! ## The search is that over the tree -/

/-- The address that is returned, with its length -/
def ResourceRva.address (r : ResourceRva) : Option (ℕ × ℕ) :=
  if r.rva = 0 then none else some (r.rva, r.len)

theorem ResourceRva.rva_eq_zero_iff {r : ResourceRva} : r.rva = 0 ↔ r.address = none := by
  rw [address]
  split
  case isTrue h => exact iff_of_true h rfl
  case isFalse h => exact iff_of_false h nofun

/-- **The loop searches the tree**, with calls that are nested deep enough. -/
theorem resourceLoop_search {buf : List UInt8} {root : ℕ} (name : List UInt16)
    {dir named n i : ℕ} {t : ResourceEntries} (h : HoldsEntries buf root dir named n i t) :
    ∀ {fuel : ℕ} {found : Bool}, t.depth ≤ fuel → ∃ r,
      resourceLoop buf name root dir named (findResourceRva buf name root fuel) n i found
        = .ok r ∧ (r.address, r.found) = t.search name found := by
  induction h with
  | nil => exact fun _ => ⟨_, rfl, rfl⟩
  | @data dir named n i offset rva size nm next hname hoffset hlt hrva hsize _ ih =>
      intro fuel found hdepth
      rw [resourceLoop_succ, entryStep_data hname hoffset hlt hrva hsize, C.ok_bind, search]
      by_cases htake : found = true ∨ ∃ n ∈ nm, HalfEqual n name
      · rw [if_pos htake, if_pos htake]
        exact ⟨⟨rva, size, true⟩, rfl, by rw [ResourceRva.address]⟩
      · rw [if_neg htake, if_neg htake]
        exact ih hdepth
  | @dir dir named n i offset subNamed count nm sub next hname hoffset hle hroot hcounts _ _
      ihsub ihnext =>
      intro fuel found hdepth
      obtain ⟨hsub, hnext⟩ := max_le_iff.mp (show max (sub.depth + 1) next.depth ≤ fuel from hdepth)
      rw [resourceLoop_succ, entryStep_held hname, followStep_dir hoffset hle, search]
      split
      case isTrue =>
          cases fuel with
          | zero => exact absurd hsub (Nat.not_succ_le_zero _)
          | succ fuel =>
              obtain ⟨r, hrun, hr⟩ := @ihsub fuel (found || nm.isSome) (Nat.le_of_succ_le_succ hsub)
              have hcall : findResourceRva buf name root (fuel + 1) (root + offset % 2 ^ 31)
                  (found || nm.isSome) = .ok r := by
                rw [findResourceRva_counts hcounts, flagAt, if_neg (by omega), hrun]
              rw [C.ok_bind]
              dsimp only
              rw [hcall, C.ok_bind, ← hr]
              by_cases hrva : r.rva = 0
              · obtain ⟨r', hrun', hr'⟩ := @ihnext (fuel + 1) r.found hnext
                rw [if_neg (not_not.mpr hrva), ResourceRva.rva_eq_zero_iff.mp hrva]
                exact ⟨r', hrun', hr'⟩
              · rw [if_pos hrva]
                refine ⟨r, rfl, ?_⟩
                rw [ResourceRva.address, if_neg hrva]
      case isFalse => exact ihnext hnext

/-! ## What the search takes -/

namespace ResourceEntries

variable {name : List UInt16}

/-- Once a name has been found, the first data entry is taken. -/
theorem search_found : ∀ t : ResourceEntries, t.search name true = (t.taken.head?, true)
  | nil => rfl
  | data name' rva size next => by
      rw [search, if_pos (.inl rfl), taken]
      split
      case isTrue => rfl
      case isFalse => rfl
  | dir name' sub next => by
      rw [search, if_pos (.inl rfl), Bool.true_or, search_found sub, taken, List.head?_append]
      cases sub.taken.head? with
      | none => exact search_found next
      | some a => rfl

/-- **Before that**, it is looked for. -/
theorem search_not_found : ∀ t : ResourceEntries,
    t.search name false =
      (((t.behindName name).flatMap taken).head?, !(t.behindName name).isEmpty)
  | nil => rfl
  | data name' rva size next => by
      rw [search, behindName]
      by_cases hname : ∃ n ∈ name', HalfEqual n name
      · rw [if_pos (.inr hname), if_pos hname, List.flatMap_singleton, taken]
        split
        case isTrue => rfl
        case isFalse => rfl
      · rw [if_neg (by simpa using hname), if_neg hname]
        exact search_not_found next
  | dir none sub next => by
      rw [search, if_pos (.inr nofun), behindName, Option.isSome_none, Bool.or_false,
        search_not_found sub]
      cases hsub : sub.behindName name with
      | nil =>
          rw [if_pos rfl]
          exact search_not_found next
      | cons seg segs =>
          rw [if_neg (List.cons_ne_nil _ _), List.flatMap_append, List.flatMap_singleton,
            List.head?_append]
          cases ((seg :: segs).flatMap taken).head? with
          | none => exact search_found next
          | some a => rfl
  | dir (some name') sub next => by
      rw [search, behindName]
      by_cases hname : HalfEqual name' name
      · rw [if_pos (.inr (by simpa using hname)), if_pos hname, Option.isSome_some,
          Bool.or_true, search_found sub, List.flatMap_singleton, taken, List.head?_append]
        cases sub.taken.head? with
        | none => exact search_found next
        | some a => rfl
      · rw [if_neg (by simpa using hname), if_neg hname]
        exact search_not_found next

/-! ## Where it is right -/

/-- A name is half the same as itself, so it is not due where none is reached. -/
theorem belowName_eq_nil : ∀ {t : ResourceEntries}, t.behindName name = [] →
    t.belowName name = []
  | nil, _ => rfl
  | data name' rva size next, h => by
      rw [behindName] at h
      split at h
      case isTrue => cases h
      case isFalse hname =>
          have hne : name' ≠ some name := by
            rintro rfl
            exact hname ⟨name, rfl, rfl, rfl⟩
          rw [belowName, if_neg hne, belowName_eq_nil h]
          rfl
  | dir none sub next, h => by
      rw [behindName] at h
      split at h
      case isTrue hsub => rw [belowName, belowName_eq_nil hsub, belowName_eq_nil h]; rfl
      case isFalse => exact absurd h (List.append_ne_nil_of_right_ne_nil _ (List.cons_ne_nil _ _))
  | dir (some name') sub next, h => by
      rw [behindName] at h
      split at h
      case isTrue => cases h
      case isFalse hname =>
          have hne : name' ≠ name := by
            rintro rfl
            exact hname ⟨rfl, rfl⟩
          rw [belowName, if_neg hne, belowName_eq_nil h]
          rfl

theorem taken_eq_nil : ∀ {t : ResourceEntries}, t.leaves = [] → t.taken = []
  | nil, _ => rfl
  | data _ _ _ _, h => by cases h
  | dir _ sub next, h => by
      obtain ⟨hsub, hnext⟩ := List.append_eq_nil_iff.mp h
      rw [taken, taken_eq_nil hsub, taken_eq_nil hnext]
      rfl

theorem taken_head {a : ℕ × ℕ} (hne : a.1 ≠ 0) : ∀ {t : ResourceEntries},
    t.leaves.head? = some a → t.taken.head? = some a
  | nil, h => by cases h
  | data _ rva size next, h => by
      cases h
      rw [taken, if_neg hne]
      rfl
  | dir _ sub next, h => by
      rw [leaves, List.head?_append] at h
      rw [taken, List.head?_append]
      cases hsub : sub.leaves with
      | nil =>
          rw [hsub] at h
          rw [taken_eq_nil hsub, taken_head hne h]
          rfl
      | cons b bs =>
          rw [hsub] at h
          cases h
          rw [taken_head hne (t := sub) (by rw [hsub]; rfl)]
          rfl

theorem taken_ne_zero {a : ℕ × ℕ} : ∀ {t : ResourceEntries}, a ∈ t.taken → a.1 ≠ 0
  | nil, h => nomatch h
  | data _ rva size next, h => by
      rw [taken] at h
      split at h
      case isTrue => cases h
      case isFalse hne =>
          rcases List.mem_cons.mp h with rfl | h
          · exact hne
          · exact taken_ne_zero h
  | dir _ sub next, h => by
      rcases List.mem_append.mp h with h | h
      · exact taken_ne_zero h
      · exact taken_ne_zero h

theorem leaves_head_of_first {a : ℕ × ℕ} : ∀ {t : ResourceEntries},
    t.firstLeaves.head? = some a → t.leaves.head? = some a
  | data _ _ _ _, h => h
  | dir _ sub next, h => by
      rw [leaves, List.head?_append, show sub.leaves.head? = some a from h]
      rfl

theorem belowName_first {first : ResourceEntries} : ∀ {t : ResourceEntries}
    {segs : List ResourceEntries}, t.behindName name = first :: segs →
    first.firstName = some name → ∃ rest, t.belowName name = first.firstLeaves ++ rest
  | data name' rva size next', segs, h, hname => by
      rw [behindName] at h
      split at h
      case isTrue =>
          obtain rfl := (List.cons.inj h).1
          exact ⟨next'.belowName name,
            by rw [belowName, if_pos (show name' = some name from hname)]; rfl⟩
      case isFalse hhalf =>
          have hne : name' ≠ some name := by
            rintro rfl
            exact hhalf ⟨name, rfl, rfl, rfl⟩
          obtain ⟨rest, hrest⟩ := belowName_first h hname
          exact ⟨rest, by rw [belowName, if_neg hne, hrest]; rfl⟩
  | dir none sub' next', segs, h, hname => by
      rw [behindName] at h
      split at h
      case isTrue hsub =>
          obtain ⟨rest, hrest⟩ := belowName_first h hname
          exact ⟨rest, by rw [belowName, belowName_eq_nil hsub, hrest]; rfl⟩
      case isFalse hsub =>
          obtain ⟨seg, segs', hsegs⟩ := List.exists_cons_of_ne_nil hsub
          rw [hsegs] at h
          obtain rfl := (List.cons.inj h).1
          obtain ⟨rest, hrest⟩ := belowName_first hsegs hname
          exact ⟨rest ++ next'.belowName name, by rw [belowName, hrest, List.append_assoc]⟩
  | dir (some name') sub' next', segs, h, hname => by
      rw [behindName] at h
      split at h
      case isTrue =>
          obtain rfl := (List.cons.inj h).1
          exact ⟨next'.belowName name, by rw [belowName, if_pos (Option.some.inj hname)]; rfl⟩
      case isFalse hhalf =>
          have hne : name' ≠ name := by
            rintro rfl
            exact hhalf ⟨rfl, rfl⟩
          obtain ⟨rest, hrest⟩ := belowName_first h hname
          exact ⟨rest, by rw [belowName, if_neg hne, hrest]; rfl⟩

theorem belowName_head {t first : ResourceEntries} {behind : List ResourceEntries}
    {a : ℕ × ℕ} (hbehind : t.behindName name = first :: behind)
    (hname : first.firstName = some name) (ha : first.firstLeaves.head? = some a) :
    (t.belowName name).head? = some a := by
  obtain ⟨rest, hrest⟩ := belowName_first hbehind hname
  rw [hrest, List.head?_append, ha]
  rfl

theorem due_of_head {t : ResourceEntries} {a : ℕ × ℕ}
    (ha : (t.belowName name).head? = some a) :
    t.due name = if a.1 = 0 then none else some a := by
  rw [due, ha, Option.filter_some]
  by_cases hzero : a.1 = 0
  · simp [hzero]
  · simp [hzero]

theorem due_eq_none_iff {t : ResourceEntries} :
    t.due name = none ↔ ∀ a, (t.belowName name).head? = some a → a.1 = 0 := by
  cases hhead : (t.belowName name).head? with
  | none =>
      refine iff_of_true ?_ fun a ha => nomatch ha
      rw [due, hhead]
      rfl
  | some b =>
      rw [due_of_head hhead]
      simp

theorem flatMap_taken_eq_nil {segs : List ResourceEntries} :
    (segs.flatMap taken).head? = none ↔ ∀ seg ∈ segs, seg.taken = [] := by
  rw [List.head?_eq_none_iff, List.flatMap_eq_nil_iff]

/-- **Where the search is right**: what it takes is what is due in the cases of
`FirstIsDue`, and in no others. -/
theorem firstIsDue_iff {t : ResourceEntries} :
    FirstIsDue name t ↔ ((t.behindName name).flatMap taken).head? = t.due name := by
  constructor
  · intro h
    cases h with
    | absent hnone =>
        rw [hnone, due, belowName_eq_nil hnone]
        rfl
    | @named first behind a hbehind hname ha hne =>
        rw [due_of_head (belowName_head hbehind hname ha), if_neg hne, hbehind,
          List.flatMap_cons, List.head?_append, taken_head hne (leaves_head_of_first ha)]
        rfl
    | @zero first behind a hbehind hname ha hzero htaken =>
        rw [due_of_head (belowName_head hbehind hname ha), if_pos hzero, hbehind]
        exact flatMap_taken_eq_nil.mpr htaken
    | @neither first behind hbehind _ htaken hdue =>
        rw [due_eq_none_iff.mpr hdue, hbehind]
        exact flatMap_taken_eq_nil.mpr htaken
    | @caught first seg behind segs rest a hbehind _ hcut htaken hseg hdue =>
        have hne : a.1 ≠ 0 := taken_ne_zero (List.mem_of_mem_head? hseg)
        rw [due_of_head hdue, if_neg hne, hbehind, hcut, List.head?_flatMap]
        refine List.findSome?_eq_some_iff.mpr ⟨segs, seg, rest, rfl, hseg, fun s hs => ?_⟩
        rw [htaken s hs]
        rfl
  · intro h
    cases hbehind : t.behindName name with
    | nil => exact .absent hbehind
    | cons first behind =>
        rw [hbehind] at h
        by_cases hstarts : first.Starts name
        · obtain ⟨hname, hleaves⟩ := hstarts
          obtain ⟨a, others, hcons⟩ := List.exists_cons_of_ne_nil hleaves
          have ha : first.firstLeaves.head? = some a := by
            rw [hcons]
            rfl
          rw [due_of_head (belowName_head hbehind hname ha)] at h
          by_cases hzero : a.1 = 0
          · rw [if_pos hzero] at h
            exact .zero hbehind hname ha hzero (flatMap_taken_eq_nil.mp h)
          · exact .named hbehind hname ha hzero
        · cases hdue : t.due name with
          | none =>
              rw [hdue] at h
              exact .neither hbehind hstarts (flatMap_taken_eq_nil.mp h)
                (due_eq_none_iff.mp hdue)
          | some a =>
              rw [hdue, List.head?_flatMap] at h
              obtain ⟨segs, seg, rest, hcut, hseg, htaken⟩ := List.findSome?_eq_some_iff.mp h
              have hhead : (t.belowName name).head? = some a :=
                (Option.filter_eq_some_iff.mp hdue).1
              exact .caught hbehind hstarts hcut
                (fun s hs => List.head?_eq_none_iff.mp (htaken s hs)) hseg hhead

end ResourceEntries

/-- **The search** of a resource directory that is a tree returns the first data
entry below the name if and only if the first entry whose name is half the same
is none, or is the name with an address, or is one that does no harm. -/
theorem findResourceRva_due_iff (buf : List UInt8) (name : List UInt16) (root : ℕ)
    (t : ResourceEntries) (found : Bool) (h : HoldsTree buf root t) :
    (∃ fuel r, findResourceRva buf name root fuel root found = .ok r ∧
      r.address = t.due name) ↔ FirstIsDue name t := by
  obtain ⟨named, count, hcounts, hholds⟩ := h
  obtain ⟨r, hrun, hr⟩ := @resourceLoop_search _ _ name _ _ _ _ _ hholds t.depth false le_rfl
  have haddress : r.address = ((t.behindName name).flatMap taken).head? := by
    rw [search_not_found] at hr
    exact congrArg Prod.fst hr
  have hcall : findResourceRva buf name root (t.depth + 1) root found = .ok r := by
    rw [findResourceRva_counts hcounts, flagAt, if_pos rfl, hrun]
  rw [firstIsDue_iff, ← haddress]
  constructor
  · rintro ⟨fuel, r', hrun', hdue⟩
    have hsame := findResourceRva_mono (Nat.le_max_left fuel (t.depth + 1)) (by rw [hrun']; nofun)
    rw [findResourceRva_mono (Nat.le_max_right fuel (t.depth + 1)) (by rw [hcall]; nofun),
      hcall, hrun', Except.ok.injEq] at hsame
    rwa [hsame]
  · exact fun hdue => ⟨t.depth + 1, r, hcall, hdue⟩

/-- A directory with one named entry, `"SVNA"`, which is a data entry. -/
def namedDirectory : List UInt8 :=
  .replicate 12 0 ++ [1, 0, 0, 0] ++ [24, 0, 0, 0x80, 34, 0, 0, 0] ++
    [4, 0, 83, 0, 86, 0, 78, 0, 65, 0] ++ [0, 16, 0, 0, 4, 0, 0, 0]

theorem holdsTree_namedDirectory :
    HoldsTree namedDirectory 0 (.data (some [83, 86, 78, 65]) 0x1000 4 .nil) :=
  ⟨1, 1, ⟨rfl, 0, rfl, rfl⟩,
    .data ⟨Nat.one_pos, 0x80000018, rfl, rfl, rfl⟩ (show loadLE _ _ 4 = .ok 34 from rfl)
      (by decide) rfl rfl .nil⟩

theorem findResourceRva_due_svna :
    ∃ fuel r, findResourceRva namedDirectory [83, 86, 78, 65] 0 fuel 0 true = .ok r ∧
      r.address = due [83, 86, 78, 65] (.data (some [83, 86, 78, 65]) 0x1000 4 .nil) :=
  (findResourceRva_due_iff namedDirectory [83, 86, 78, 65] 0 _ true
    holdsTree_namedDirectory).mpr
    (.named rfl rfl rfl (show 0x1000 ≠ 0 by decide))

/-- A directory with an entry `"SVNA"` without data, and a numbered data entry. -/
def emptyNamedDirectory : List UInt8 :=
  .replicate 12 0 ++ [1, 0, 1, 0] ++ [32, 0, 0, 0x80, 42, 0, 0, 0x80] ++
    [7, 0, 0, 0, 58, 0, 0, 0] ++ [4, 0, 83, 0, 86, 0, 78, 0, 65, 0] ++
    .replicate 16 0 ++ [0, 16, 0, 0, 4, 0, 0, 0]

def emptyNamedTree : ResourceEntries :=
  .dir (some [83, 86, 78, 65]) .nil (.data none 0x1000 4 .nil)

theorem holdsTree_emptyNamedDirectory : HoldsTree emptyNamedDirectory 0 emptyNamedTree :=
  ⟨1, 2, ⟨rfl, 1, rfl, rfl⟩,
    .dir ⟨Nat.one_pos, 0x80000020, rfl, rfl, rfl⟩
      (show loadLE _ _ 4 = .ok 0x8000002a from rfl) (by decide) (by decide)
      ⟨rfl, 0, rfl, rfl⟩ .nil
      (.data (le_refl 1) (show loadLE _ _ 4 = .ok 58 from rfl) (by decide) rfl rfl .nil)⟩

/-- `"SVXY"` is taken for `"SVNA"`, and what follows an entry without data for its
data. -/
theorem findResourceRva_half_name :
    HoldsTree namedDirectory 0 (.data (some [83, 86, 78, 65]) 0x1000 4 .nil) ∧
    findResourceRva namedDirectory [83, 86, 88, 89] 0 1 0 false = .ok ⟨0x1000, 4, true⟩ ∧
    due [83, 86, 88, 89] (.data (some [83, 86, 78, 65]) 0x1000 4 .nil) = none ∧
    HoldsTree emptyNamedDirectory 0 emptyNamedTree ∧
    findResourceRva emptyNamedDirectory [83, 86, 78, 65] 0 2 0 false
      = .ok ⟨0x1000, 4, true⟩ ∧
    due [83, 86, 78, 65] emptyNamedTree = none :=
  ⟨holdsTree_namedDirectory, by decide, by decide, holdsTree_emptyNamedDirectory,
    by decide, by decide⟩

end Nawam
