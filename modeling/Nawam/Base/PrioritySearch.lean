import Mathlib.Data.Finset.Card
import Mathlib.Logic.Relation

/-!
# Searching by priority

A graph whose edges stand in an order: `next k` lists where one can go on from
`k`, the preferred edge first, and `none` means that `k` accepts. Along an edge
a payload is carried and changed. `search` goes depth first and takes the first
accepting place it comes by; it enters a place once.

Where the places stand on levels and the edges stay on a level or lead to the
next one, `lockstep` searches level by level: it sweeps a level, keeps what is
to be gone on with on the next level in its order, and drops what stands behind
a place that accepts. The two find the same (`search_eq_lockstep`).
-/

namespace Nawam.Priority

open Relation (ReflTransGen)

variable {κ μ : Type}

/-- The edges out of a place, with what they do to the payload. -/
abbrev Edges (κ μ : Type) : Type := List (κ × (μ → μ))

/-- The payload along each of the edges. -/
def carry (l : Edges κ μ) (m : μ) : List (κ × μ) := l.map fun e => (e.1, e.2 m)

@[simp] theorem carry_nil (m : μ) : carry ([] : Edges κ μ) m = [] := rfl

@[simp] theorem carry_cons (e : κ × (μ → μ)) (l : Edges κ μ) (m : μ) :
    carry (e :: l) m = (e.1, e.2 m) :: carry l m := rfl

theorem mem_carry {l : Edges κ μ} {m : μ} {x : κ × μ} :
    x ∈ carry l m ↔ ∃ e ∈ l, (e.1, e.2 m) = x := List.mem_map

/-- One edge, with the payload. -/
def Step (next : κ → Option (Edges κ μ)) (x y : κ × μ) : Prop :=
  ∃ l, next x.1 = some l ∧ y ∈ carry l x.2

/-- `m` is the payload with which a way out of `x` comes to a place that accepts. -/
def Finds (next : κ → Option (Edges κ μ)) (x : κ × μ) (m : μ) : Prop :=
  ∃ k, ReflTransGen (Step next) x (k, m) ∧ next k = none

section Explored

variable {next : κ → Option (Edges κ μ)} {dom fresh : Finset κ}

/-- Of the places `dom`, those entered neither accept nor lead to a place that
is neither entered nor `ahead`. -/
def Explored (next : κ → Option (Edges κ μ)) (dom fresh : Finset κ) (ahead : List κ) : Prop :=
  ∀ k ∈ dom, k ∉ fresh → ∃ l, next k = some l ∧
    ∀ e ∈ l, e.1 ∈ dom ∧ (e.1 ∈ fresh → e.1 ∈ ahead)

/-- The edges out of `dom` stay in it. -/
def Closed (next : κ → Option (Edges κ μ)) (dom : Finset κ) : Prop :=
  ∀ k ∈ dom, ∀ l, next k = some l → ∀ e ∈ l, e.1 ∈ dom

/-- From a place that is entered no way leads to one that accepts, once all
that is entered is explored. -/
theorem Explored.not_finds (h : Explored next dom fresh [])
    {x : κ × μ} (hdom : x.1 ∈ dom) (hx : x.1 ∉ fresh) (m : μ) : ¬Finds next x m := by
  rintro ⟨k, hway, haccept⟩
  have hinv : k ∈ dom ∧ k ∉ fresh := by
    generalize hy : (k, m) = y at hway
    have : y.1 ∈ dom ∧ y.1 ∉ fresh := by
      clear hy haccept
      induction hway with
      | refl => exact ⟨hdom, hx⟩
      | tail _ hstep ih =>
          obtain ⟨l, hl, hmem⟩ := hstep
          obtain ⟨l', hl', hedges⟩ := h _ ih.1 ih.2
          obtain ⟨e, he, rfl⟩ := mem_carry.mp hmem
          rw [hl] at hl'
          cases hl'
          exact ⟨(hedges e he).1, fun hin => List.not_mem_nil ((hedges e he).2 hin)⟩
    rw [← hy] at this
    exact this
  obtain ⟨l, hl, -⟩ := h k hinv.1 hinv.2
  rw [haccept] at hl
  cases hl

end Explored

section Ways

variable {next : κ → Option (Edges κ μ)}

theorem Finds.step {x y : κ × μ} {m : μ} (h : Step next x y) (hy : Finds next y m) :
    Finds next x m := by
  obtain ⟨k, hway, hk⟩ := hy
  exact ⟨k, .head h hway, hk⟩

/-- A way of `n` edges out of `x` comes to a place that accepts, with `m`. -/
def Leads (next : κ → Option (Edges κ μ)) : ℕ → κ × μ → μ → Prop
  | 0, x, m => next x.1 = none ∧ m = x.2
  | n + 1, x, m => ∃ y, Step next x y ∧ Leads next n y m

theorem finds_iff_leads {x : κ × μ} {m : μ} : Finds next x m ↔ ∃ n, Leads next n x m := by
  constructor
  · rintro ⟨k, hway, hk⟩
    generalize hy : (k, m) = y at hway
    induction hway using ReflTransGen.head_induction_on with
    | refl =>
        subst hy
        exact ⟨0, hk, rfl⟩
    | head hstep _ ih =>
        obtain ⟨n, hn⟩ := ih
        exact ⟨n + 1, _, hstep, hn⟩
  · rintro ⟨n, h⟩
    induction n generalizing x with
    | zero =>
        obtain ⟨hk, rfl⟩ := h
        exact ⟨x.1, .refl, hk⟩
    | succ n ih =>
        obtain ⟨y, hstep, hy⟩ := h
        exact (ih hy).step hstep

end Ways

variable [DecidableEq κ]

section Depth

variable (next : κ → Option (Edges κ μ))

/-- Depth first, with the places not entered yet and the ways still to be
tried. -/
def search : Finset κ → List (κ × μ) → Option μ × Finset κ
  | fresh, [] => (none, fresh)
  | fresh, (k, m) :: S =>
      if k ∈ fresh then
        match next k with
        | none => (some m, fresh.erase k)
        | some l => search (fresh.erase k) (carry l m ++ S)
      else search fresh S
termination_by fresh S => (fresh.card, S.length)
decreasing_by
  · exact Prod.Lex.left _ _ (Finset.card_erase_lt_of_mem ‹_›)
  · exact Prod.Lex.right _ (Nat.lt_succ_self _)

variable {next} {fresh : Finset κ} {k : κ} {m : μ} {S : List (κ × μ)}

@[simp] theorem search_nil : search next fresh [] = (none, fresh) := by
  rw [search]

theorem search_stale (h : k ∉ fresh) :
    search next fresh ((k, m) :: S) = search next fresh S := by
  rw [search, if_neg h]

theorem search_accept (h : k ∈ fresh) (hk : next k = none) :
    search next fresh ((k, m) :: S) = (some m, fresh.erase k) := by
  rw [search, if_pos h]
  simp only [hk]

theorem search_spread {l : Edges κ μ} (h : k ∈ fresh) (hk : next k = some l) :
    search next fresh ((k, m) :: S) = search next (fresh.erase k) (carry l m ++ S) := by
  rw [search, if_pos h]
  simp only [hk]

theorem search_out : ∀ {S : List (κ × μ)}, (∀ x ∈ S, x.1 ∉ fresh) →
    search next fresh S = (none, fresh)
  | [], _ => search_nil
  | (k, m) :: S, hS => by
      rw [search_stale (hS (k, m) List.mem_cons_self)]
      exact search_out fun x hx => hS x (List.mem_cons_of_mem _ hx)

/-- What stands in front is searched first, and the rest with what that leaves. -/
theorem search_append (X Y : List (κ × μ)) :
    search next fresh (X ++ Y) =
      match search next fresh X with
      | (some m, fresh') => (some m, fresh')
      | (none, fresh') => search next fresh' Y := by
  induction fresh, X using search.induct next with
  | case1 fresh => rw [search_nil, List.nil_append]
  | case2 fresh k m S hk hnext =>
      rw [List.cons_append, search_accept hk hnext, search_accept hk hnext]
  | case3 fresh k m S hk l hnext ih =>
      rw [List.cons_append, search_spread hk hnext, search_spread hk hnext,
        ← List.append_assoc]
      exact ih
  | case4 fresh k m S hk ih =>
      rw [List.cons_append, search_stale hk, search_stale hk]
      exact ih

theorem search_append_none {X Y : List (κ × μ)} {fresh' : Finset κ}
    (h : search next fresh X = (none, fresh')) :
    search next fresh (X ++ Y) = search next fresh' Y := by
  rw [search_append, h]

theorem search_append_some {X Y : List (κ × μ)} {m : μ} {fresh' : Finset κ}
    (h : search next fresh X = (some m, fresh')) :
    search next fresh (X ++ Y) = (some m, fresh') := by
  rw [search_append, h]

/-- Of the places not entered before, the search enters some. -/
theorem search_subset : (search next fresh S).2 ⊆ fresh := by
  induction fresh, S using search.induct next with
  | case1 fresh => rw [search_nil]
  | case2 fresh k m S hk hnext =>
      rw [search_accept hk hnext]
      exact Finset.erase_subset k fresh
  | case3 fresh k m S hk l hnext ih =>
      rw [search_spread hk hnext]
      exact ih.trans (Finset.erase_subset k fresh)
  | case4 fresh k m S hk ih =>
      rw [search_stale hk]
      exact ih

/-- What is found is found along a way out of one of the places. -/
theorem search_sound {m' : μ} (h : (search next fresh S).1 = some m') :
    ∃ x ∈ S, Finds next x m' := by
  induction fresh, S using search.induct next with
  | case1 fresh =>
      rw [search_nil] at h
      cases h
  | case2 fresh k m S hk hnext =>
      rw [search_accept hk hnext] at h
      cases h
      exact ⟨(k, m'), List.mem_cons_self, k, .refl, hnext⟩
  | case3 fresh k m S hk l hnext ih =>
      rw [search_spread hk hnext] at h
      obtain ⟨x, hx, k', hway, haccept⟩ := ih h
      rcases List.mem_append.mp hx with hx | hx
      · exact ⟨(k, m), List.mem_cons_self, k', .head ⟨l, hnext, hx⟩ hway, haccept⟩
      · exact ⟨x, List.mem_cons_of_mem _ hx, k', hway, haccept⟩
  | case4 fresh k m S hk ih =>
      rw [search_stale hk] at h
      obtain ⟨x, hx, hfinds⟩ := ih h
      exact ⟨x, List.mem_cons_of_mem _ hx, hfinds⟩

/-- A search that finds nothing has explored what it entered. -/
theorem search_none {dom fresh' : Finset κ} (hdom : Closed next dom)
    (hS : ∀ x ∈ S, x.1 ∈ dom) {rest : List κ}
    (hexp : Explored next dom fresh (S.map Prod.fst ++ rest))
    (h : search next fresh S = (none, fresh')) :
    Explored next dom fresh' rest ∧ ∀ x ∈ S, x.1 ∉ fresh' := by
  induction fresh, S using search.induct next with
  | case1 fresh =>
      rw [search_nil] at h
      cases h
      exact ⟨hexp, fun _ hx => absurd hx List.not_mem_nil⟩
  | case2 fresh k m S hk hnext =>
      rw [search_accept hk hnext] at h
      cases h
  | case3 fresh k m S hk l hnext ih =>
      rw [search_spread hk hnext] at h
      have hkdom : k ∈ dom := hS (k, m) List.mem_cons_self
      have hnew : ∀ x ∈ carry l m ++ S, x.1 ∈ dom := by
        intro x hx
        rcases List.mem_append.mp hx with hx | hx
        · obtain ⟨e, he, rfl⟩ := mem_carry.mp hx
          exact hdom k hkdom l hnext e he
        · exact hS x (List.mem_cons_of_mem _ hx)
      have hexp' : Explored next dom (fresh.erase k)
          ((carry l m ++ S).map Prod.fst ++ rest) := by
        intro j hj hjfresh
        have hahead : ∀ e ∈ l, e.1 ∈ (carry l m ++ S).map Prod.fst ++ rest := by
          intro e he
          rw [List.map_append, List.append_assoc]
          exact List.mem_append_left _ (List.mem_map_of_mem (mem_carry.mpr ⟨e, he, rfl⟩))
        by_cases hjk : j = k
        · subst hjk
          exact ⟨l, hnext, fun e he => ⟨hdom j hj l hnext e he, fun _ => hahead e he⟩⟩
        · obtain ⟨l', hl', hedges⟩ := hexp j hj fun hin =>
            hjfresh (Finset.mem_erase.mpr ⟨hjk, hin⟩)
          refine ⟨l', hl', fun e he => ⟨(hedges e he).1, fun hin => ?_⟩⟩
          obtain ⟨hne, hin⟩ := Finset.mem_erase.mp hin
          have hmem := (hedges e he).2 hin
          rw [List.map_cons, List.cons_append, List.mem_cons] at hmem
          rw [List.map_append, List.append_assoc]
          exact List.mem_append_right _ (hmem.resolve_left hne)
      obtain ⟨hexplored, hentered⟩ := ih hnew hexp' h
      refine ⟨hexplored, fun x hx => ?_⟩
      rcases List.mem_cons.mp hx with rfl | hx
      · intro hin
        have hsub : fresh' ⊆ fresh.erase k := by
          have hle : (search next (fresh.erase k) (carry l m ++ S)).2 ⊆ fresh.erase k :=
            search_subset
          rwa [h] at hle
        exact absurd rfl (Finset.mem_erase.mp (hsub hin)).1
      · exact hentered x (List.mem_append_right _ hx)
  | case4 fresh k m S hk ih =>
      rw [search_stale hk] at h
      have hexp' : Explored next dom fresh (S.map Prod.fst ++ rest) := by
        intro j hj hjfresh
        obtain ⟨l, hl, hedges⟩ := hexp j hj hjfresh
        refine ⟨l, hl, fun e he => ⟨(hedges e he).1, fun hin => ?_⟩⟩
        have hmem := (hedges e he).2 hin
        rw [List.map_cons, List.cons_append, List.mem_cons] at hmem
        refine hmem.resolve_left fun heq => hk ?_
        rwa [heq] at hin
      obtain ⟨hexplored, hentered⟩ :=
        ih (fun x hx => hS x (List.mem_cons_of_mem _ hx)) hexp' h
      refine ⟨hexplored, fun x hx => ?_⟩
      rcases List.mem_cons.mp hx with rfl | hx
      · intro hin
        have hsub : (search next fresh S).2 ⊆ fresh := search_subset
        rw [h] at hsub
        exact hk (hsub hin)
      · exact hentered x hx

/-- A search among places that are not left enters no others. -/
theorem search_outside {P : κ → Prop}
    (hP : ∀ k, P k → ∀ l, next k = some l → ∀ e ∈ l, P e.1) (hS : ∀ x ∈ S, P x.1)
    {j : κ} (hj : ¬P j) : j ∈ (search next fresh S).2 ↔ j ∈ fresh := by
  induction fresh, S using search.induct next with
  | case1 fresh => rw [search_nil]
  | case2 fresh k m S hk hnext =>
      have hne : j ≠ k := by
        rintro rfl
        exact hj (hS (j, m) List.mem_cons_self)
      rw [search_accept hk hnext, Finset.mem_erase, and_iff_right hne]
  | case3 fresh k m S hk l hnext ih =>
      have hin : P k := hS (k, m) List.mem_cons_self
      have hne : j ≠ k := by
        rintro rfl
        exact hj hin
      have hinside : ∀ x ∈ carry l m ++ S, P x.1 := by
        intro x hx
        rcases List.mem_append.mp hx with hx | hx
        · obtain ⟨e, he, rfl⟩ := mem_carry.mp hx
          exact hP k hin l hnext e he
        · exact hS x (List.mem_cons_of_mem _ hx)
      rw [search_spread hk hnext, ih hinside, Finset.mem_erase, and_iff_right hne]
  | case4 fresh k m S hk ih =>
      rw [search_stale hk]
      exact ih fun x hx => hS x (List.mem_cons_of_mem _ hx)

end Depth

section Breadth

variable (next : κ → Option (Edges κ μ)) (leaves : κ → Bool)

/-- The places that can be come to without leaving the level and that accept or
leave it, in their order; and what is not entered then. -/
def close : Finset κ → List (κ × μ) → List (κ × μ) × Finset κ
  | fresh, [] => ([], fresh)
  | fresh, (k, m) :: S =>
      if k ∈ fresh then
        match next k with
        | none => ((k, m) :: (close (fresh.erase k) S).1, (close (fresh.erase k) S).2)
        | some l =>
            if leaves k then
              ((k, m) :: (close (fresh.erase k) S).1, (close (fresh.erase k) S).2)
            else close (fresh.erase k) (carry l m ++ S)
      else close fresh S
termination_by fresh S => (fresh.card, S.length)
decreasing_by
  · exact Prod.Lex.left _ _ (Finset.card_erase_lt_of_mem ‹_›)
  · exact Prod.Lex.left _ _ (Finset.card_erase_lt_of_mem ‹_›)
  · exact Prod.Lex.left _ _ (Finset.card_erase_lt_of_mem ‹_›)
  · exact Prod.Lex.right _ (Nat.lt_succ_self _)

/-- What the first place that accepts holds, and where the places in front of
it go on. -/
def fire : List (κ × μ) → Option μ × List (κ × μ)
  | [] => (none, [])
  | (k, m) :: T =>
      match next k with
      | none => (some m, [])
      | some l => ((fire T).1, carry l m ++ (fire T).2)

/-- Level by level: what is found later comes of what is preferred. -/
def lockstep (dom : Finset κ) : ℕ → List (κ × μ) → Option μ
  | 0, _ => none
  | n + 1, L =>
      (lockstep dom n (fire next (close next leaves dom L).1).2).or
        (fire next (close next leaves dom L).1).1

variable {next leaves} {fresh : Finset κ} {k : κ} {m : μ} {S : List (κ × μ)}

@[simp] theorem close_nil : close next leaves fresh [] = ([], fresh) := by
  rw [close]

theorem close_stale (h : k ∉ fresh) :
    close next leaves fresh ((k, m) :: S) = close next leaves fresh S := by
  rw [close, if_neg h]

theorem close_accept (h : k ∈ fresh) (hk : next k = none) :
    close next leaves fresh ((k, m) :: S) =
      ((k, m) :: (close next leaves (fresh.erase k) S).1,
        (close next leaves (fresh.erase k) S).2) := by
  rw [close, if_pos h]
  simp only [hk]

theorem close_leave {l : Edges κ μ} (h : k ∈ fresh) (hk : next k = some l)
    (hleaf : leaves k = true) :
    close next leaves fresh ((k, m) :: S) =
      ((k, m) :: (close next leaves (fresh.erase k) S).1,
        (close next leaves (fresh.erase k) S).2) := by
  rw [close, if_pos h]
  simp only [hk, if_pos hleaf]

theorem close_stay {l : Edges κ μ} (h : k ∈ fresh) (hk : next k = some l)
    (hleaf : leaves k = false) :
    close next leaves fresh ((k, m) :: S) =
      close next leaves (fresh.erase k) (carry l m ++ S) := by
  rw [close, if_pos h]
  simp only [hk, hleaf, Bool.false_eq_true, if_false]

theorem close_append (X Y : List (κ × μ)) :
    close next leaves fresh (X ++ Y) =
      ((close next leaves fresh X).1 ++
          (close next leaves (close next leaves fresh X).2 Y).1,
        (close next leaves (close next leaves fresh X).2 Y).2) := by
  induction fresh, X using close.induct next leaves with
  | case1 fresh => rw [close_nil, List.nil_append, List.nil_append]
  | case2 fresh k m S hk hnext ih =>
      rw [List.cons_append, close_accept hk hnext, close_accept hk hnext, ih,
        List.cons_append]
  | case3 fresh k m S hk l hnext hleaf ih =>
      rw [List.cons_append, close_leave hk hnext hleaf, close_leave hk hnext hleaf, ih,
        List.cons_append]
  | case4 fresh k m S hk l hnext hleaf ih =>
      have hleaf : leaves k = false := by simpa using hleaf
      rw [List.cons_append, close_stay hk hnext hleaf, close_stay hk hnext hleaf,
        ← List.append_assoc, ih]
  | case5 fresh k m S hk ih =>
      rw [List.cons_append, close_stale hk, close_stale hk, ih]

theorem close_subset : (close next leaves fresh S).2 ⊆ fresh := by
  induction fresh, S using close.induct next leaves with
  | case1 fresh => rw [close_nil]
  | case2 fresh k m S hk hnext ih =>
      rw [close_accept hk hnext]
      exact ih.trans (Finset.erase_subset k fresh)
  | case3 fresh k m S hk l hnext hleaf ih =>
      rw [close_leave hk hnext hleaf]
      exact ih.trans (Finset.erase_subset k fresh)
  | case4 fresh k m S hk l hnext hleaf ih =>
      rw [close_stay hk hnext (by simpa using hleaf)]
      exact ih.trans (Finset.erase_subset k fresh)
  | case5 fresh k m S hk ih =>
      rw [close_stale hk]
      exact ih

omit [DecidableEq κ] in
theorem fire_mem : ∀ {T : List (κ × μ)} {m : μ}, (fire next T).1 = some m →
    ∃ k, (k, m) ∈ T ∧ next k = none
  | [], m, h => by
      rw [fire] at h
      cases h
  | (k, m') :: T, m, h => by
      rw [fire] at h
      cases hnext : next k with
      | none =>
          simp only [hnext] at h
          cases h
          exact ⟨k, List.mem_cons_self, hnext⟩
      | some l =>
          simp only [hnext] at h
          obtain ⟨k', hmem, hk'⟩ := fire_mem h
          exact ⟨k', List.mem_cons_of_mem _ hmem, hk'⟩

theorem lockstep_nil (dom : Finset κ) : ∀ n, lockstep next leaves dom n [] = none
  | 0 => rfl
  | n + 1 => by
      rw [lockstep, close_nil, fire, lockstep_nil dom n]
      rfl

/-- A level without a place that accepts or leaves it is the last one. -/
theorem lockstep_of_close_nil (dom : Finset κ) {L : List (κ × μ)}
    (h : (close next leaves dom L).1 = []) : ∀ n, lockstep next leaves dom n L = none
  | 0 => rfl
  | n + 1 => by
      rw [lockstep, h, fire, lockstep_nil]
      rfl

end Breadth

/-- A place stands on a level. Those that `leaves` holds of are left for the
next one. -/
structure Levelled (next : κ → Option (Edges κ μ)) (leaves : κ → Bool) (level : κ → ℕ) :
    Prop where
  stays : ∀ {k l}, next k = some l → leaves k = false → ∀ e ∈ l, level e.1 = level k
  climbs : ∀ {k l}, next k = some l → leaves k = true → ∀ e ∈ l, level e.1 = level k + 1

namespace Levelled

variable {next : κ → Option (Edges κ μ)} {leaves : κ → Bool} {level : κ → ℕ}
  {fresh : Finset κ} {k : κ} {i : ℕ} {S : List (κ × μ)}

omit [DecidableEq κ] in
/-- An edge does not lead back to an earlier level. -/
theorem le (h : Levelled next leaves level) {l : Edges κ μ} (hk : next k = some l) :
    ∀ e ∈ l, level k ≤ level e.1 := by
  intro e he
  cases hleaf : leaves k with
  | false => exact (h.stays hk hleaf e he).ge
  | true => exact (h.climbs hk hleaf e he).ge.trans' (Nat.le_succ _)

omit [DecidableEq κ] in
theorem stays_carry (h : Levelled next leaves level) {l : Edges κ μ} (hk : next k = some l)
    (hleaf : leaves k = false) {m : μ} : ∀ x ∈ carry l m, level x.1 = level k := by
  intro x hx
  obtain ⟨e, he, rfl⟩ := mem_carry.mp hx
  exact h.stays hk hleaf e he

omit [DecidableEq κ] in
theorem climbs_carry (h : Levelled next leaves level) {l : Edges κ μ} (hk : next k = some l)
    (hleaf : leaves k = true) {m : μ} : ∀ x ∈ carry l m, level x.1 = level k + 1 := by
  intro x hx
  obtain ⟨e, he, rfl⟩ := mem_carry.mp hx
  exact h.climbs hk hleaf e he

/-- A search above a level enters nothing on it. -/
theorem search_below (h : Levelled next leaves level) (hS : ∀ x ∈ S, i < level x.1)
    (hk : level k ≤ i) : k ∈ (search next fresh S).2 ↔ k ∈ fresh := by
  have habove : ∀ j, i < level j → ∀ l, next j = some l → ∀ e ∈ l, i < level e.1 :=
    fun j hj l hl e he => hj.trans_le (h.le hl e he)
  exact search_outside habove hS (Nat.not_lt.mpr hk)

/-- What a search finds above a level does not depend on what is entered on it. -/
theorem search_frame (h : Levelled next leaves level) (hS : ∀ x ∈ S, i < level x.1)
    {fresh' : Finset κ} (hfresh : ∀ j, i < level j → (j ∈ fresh ↔ j ∈ fresh')) :
    (search next fresh S).1 = (search next fresh' S).1 := by
  induction fresh, S using search.induct next generalizing fresh' with
  | case1 fresh => rw [search_nil, search_nil]
  | case2 fresh j m S hj hnext =>
      have hj' : j ∈ fresh' := (hfresh j (hS (j, m) List.mem_cons_self)).mp hj
      rw [search_accept hj hnext, search_accept hj' hnext]
  | case3 fresh j m S hj l hnext ih =>
      have hlevel : i < level j := hS (j, m) List.mem_cons_self
      have hj' : j ∈ fresh' := (hfresh j hlevel).mp hj
      rw [search_spread hj hnext, search_spread hj' hnext]
      refine ih ?_ fun n hn => ?_
      · intro x hx
        rcases List.mem_append.mp hx with hx | hx
        · obtain ⟨e, he, rfl⟩ := mem_carry.mp hx
          exact hlevel.trans_le (h.le hnext e he)
        · exact hS x (List.mem_cons_of_mem _ hx)
      · rw [Finset.mem_erase, Finset.mem_erase, hfresh n hn]
  | case4 fresh j m S hj ih =>
      have hj' : j ∉ fresh' := fun hin =>
        hj ((hfresh j (hS (j, m) List.mem_cons_self)).mpr hin)
      rw [search_stale hj, search_stale hj']
      exact ih (fun x hx => hS x (List.mem_cons_of_mem _ hx)) hfresh

theorem search_erase (h : Levelled next leaves level) (hS : ∀ x ∈ S, i < level x.1)
    (hk : level k ≤ i) : (search next (fresh.erase k) S).1 = (search next fresh S).1 := by
  refine h.search_frame hS fun j hj => ?_
  have hne : j ≠ k := by
    rintro rfl
    exact absurd hk (Nat.not_le.mpr hj)
  rw [Finset.mem_erase, and_iff_right hne]

theorem close_level (h : Levelled next leaves level) (hS : ∀ x ∈ S, level x.1 = i) :
    ∀ x ∈ (close next leaves fresh S).1, level x.1 = i ∧ (next x.1 = none ∨ leaves x.1 = true) := by
  induction fresh, S using close.induct next leaves with
  | case1 fresh =>
      rw [close_nil]
      exact fun _ hx => absurd hx List.not_mem_nil
  | case2 fresh k m S hk hnext ih =>
      rw [close_accept hk hnext]
      intro x hx
      rcases List.mem_cons.mp hx with rfl | hx
      · exact ⟨hS (k, m) List.mem_cons_self, .inl hnext⟩
      · exact ih (fun x hx => hS x (List.mem_cons_of_mem _ hx)) x hx
  | case3 fresh k m S hk l hnext hleaf ih =>
      rw [close_leave hk hnext hleaf]
      intro x hx
      rcases List.mem_cons.mp hx with rfl | hx
      · exact ⟨hS (k, m) List.mem_cons_self, .inr hleaf⟩
      · exact ih (fun x hx => hS x (List.mem_cons_of_mem _ hx)) x hx
  | case4 fresh k m S hk l hnext hleaf ih =>
      have hleaf : leaves k = false := by simpa using hleaf
      rw [close_stay hk hnext hleaf]
      refine ih fun x hx => ?_
      rcases List.mem_append.mp hx with hx | hx
      · exact (h.stays_carry hnext hleaf x hx).trans (hS (k, m) List.mem_cons_self)
      · exact hS x (List.mem_cons_of_mem _ hx)
  | case5 fresh k m S hk ih =>
      rw [close_stale hk]
      exact ih fun x hx => hS x (List.mem_cons_of_mem _ hx)

omit [DecidableEq κ] in
theorem fire_level (h : Levelled next leaves level) : ∀ {T : List (κ × μ)},
    (∀ x ∈ T, level x.1 = i ∧ (next x.1 = none ∨ leaves x.1 = true)) →
    ∀ x ∈ (fire next T).2, level x.1 = i + 1
  | [], _ => fun _ hx => absurd hx List.not_mem_nil
  | (k, m) :: T, hT => by
      obtain ⟨hlevel, hkind⟩ := hT (k, m) List.mem_cons_self
      intro x hx
      rw [fire] at hx
      cases hnext : next k with
      | none =>
          simp only [hnext] at hx
          exact absurd hx List.not_mem_nil
      | some l =>
          simp only [hnext] at hx
          have hleaf : leaves k = true := by
            refine hkind.resolve_left fun hnone => ?_
            rw [show next k = none from hnone] at hnext
            cases hnext
          rcases List.mem_append.mp hx with hx | hx
          · rw [h.climbs_carry hnext hleaf x hx, ← hlevel]
          · exact h.fire_level (fun y hy => hT y (List.mem_cons_of_mem _ hy)) x hx

/-- What stands in front on later levels is searched; if nothing is found
there, it makes no difference whether the places of this level are searched one
after the other or all that they lead to on the next level. -/
theorem search_close (h : Levelled next leaves level) (hS : ∀ x ∈ S, level x.1 = i)
    {fresh' : Finset κ} (hfresh : ∀ j, level j = i → (j ∈ fresh ↔ j ∈ fresh'))
    {X : List (κ × μ)} (hX : ∀ x ∈ X, i < level x.1) :
    (search next fresh' (X ++ S)).1 =
      (search next fresh' (X ++ (fire next (close next leaves fresh S).1).2)).1.or
        (fire next (close next leaves fresh S).1).1 := by
  induction fresh, S using close.induct next leaves generalizing fresh' X with
  | case1 fresh => rw [close_nil, fire, Option.or_none]
  | case2 fresh k m S hk hnext ih =>
      have hlevel : level k = i := hS (k, m) List.mem_cons_self
      rw [close_accept hk hnext, fire]
      simp only [hnext, List.append_nil]
      rcases hx : search next fresh' X with ⟨_ | a, left⟩
      · have hin : k ∈ left := by
          have hbelow : k ∈ (search next fresh' X).2 ↔ k ∈ fresh' := h.search_below hX hlevel.le
          rw [hx] at hbelow
          exact hbelow.mpr ((hfresh k hlevel).mp hk)
        rw [search_append_none hx, search_accept hin hnext, Option.none_or]
      · rw [search_append_some hx, Option.some_or]
  | case3 fresh k m S hk l hnext hleaf ih =>
      have hlevel : level k = i := hS (k, m) List.mem_cons_self
      have hclimb : ∀ x ∈ carry l m, i < level x.1 := fun x hx => by
        rw [h.climbs_carry hnext hleaf x hx, hlevel]
        exact Nat.lt_succ_self i
      rw [close_leave hk hnext hleaf, fire]
      simp only [hnext]
      rcases hx : search next fresh' X with ⟨_ | a, left⟩
      · have hsame : ∀ j, level j = i → (j ∈ left ↔ j ∈ fresh') := fun j hj => by
          have hbelow : j ∈ (search next fresh' X).2 ↔ j ∈ fresh' := h.search_below hX hj.le
          rwa [hx] at hbelow
        have hin : k ∈ left := (hsame k hlevel).mpr ((hfresh k hlevel).mp hk)
        have hfresh' : ∀ j, level j = i → (j ∈ fresh.erase k ↔ j ∈ left.erase k) :=
          fun j hj => by
            rw [Finset.mem_erase, Finset.mem_erase, hfresh j hj, hsame j hj]
        have hrest : ∀ x ∈ S, level x.1 = i := fun x hx => hS x (List.mem_cons_of_mem _ hx)
        have habove : ∀ x ∈ carry l m ++
            (fire next (close next leaves (fresh.erase k) S).1).2, i < level x.1 := by
          intro x hx
          rcases List.mem_append.mp hx with hx | hx
          · exact hclimb x hx
          · rw [h.fire_level (h.close_level hrest) x hx]
            exact Nat.lt_succ_self i
        rw [search_append_none hx, search_append_none hx, search_spread hin hnext,
          ih hrest hfresh' hclimb, h.search_erase habove hlevel.le]
      · rw [search_append_some hx, search_append_some hx, Option.some_or]
  | case4 fresh k m S hk l hnext hleaf ih =>
      have hlevel : level k = i := hS (k, m) List.mem_cons_self
      have hleaf : leaves k = false := by simpa using hleaf
      rw [close_stay hk hnext hleaf]
      have hrest : ∀ x ∈ carry l m ++ S, level x.1 = i := by
        intro x hx
        rcases List.mem_append.mp hx with hx | hx
        · rw [h.stays_carry hnext hleaf x hx, hlevel]
        · exact hS x (List.mem_cons_of_mem _ hx)
      rcases hx : search next fresh' X with ⟨_ | a, left⟩
      · have hsame : ∀ j, level j = i → (j ∈ left ↔ j ∈ fresh') := fun j hj => by
          have hbelow : j ∈ (search next fresh' X).2 ↔ j ∈ fresh' := h.search_below hX hj.le
          rwa [hx] at hbelow
        have hin : k ∈ left := (hsame k hlevel).mpr ((hfresh k hlevel).mp hk)
        have hfresh' : ∀ j, level j = i → (j ∈ fresh.erase k ↔ j ∈ left.erase k) :=
          fun j hj => by
            rw [Finset.mem_erase, Finset.mem_erase, hfresh j hj, hsame j hj]
        have habove : ∀ x ∈ (fire next (close next leaves (fresh.erase k)
            (carry l m ++ S)).1).2, i < level x.1 := by
          intro x hx
          rw [h.fire_level (h.close_level hrest) x hx]
          exact Nat.lt_succ_self i
        have hnil : ∀ x ∈ ([] : List (κ × μ)), i < level x.1 :=
          fun _ hx => absurd hx List.not_mem_nil
        have hstep := ih hrest hfresh' hnil
        rw [List.nil_append, List.nil_append, h.search_erase habove hlevel.le] at hstep
        rw [search_append_none hx, search_append_none hx, search_spread hin hnext, hstep]
      · rw [search_append_some hx, search_append_some hx, Option.some_or]
  | case5 fresh k m S hk ih =>
      have hlevel : level k = i := hS (k, m) List.mem_cons_self
      rw [close_stale hk]
      rcases hx : search next fresh' X with ⟨_ | a, left⟩
      · have hsame : ∀ j, level j = i → (j ∈ left ↔ j ∈ fresh') := fun j hj => by
          have hbelow : j ∈ (search next fresh' X).2 ↔ j ∈ fresh' := h.search_below hX hj.le
          rwa [hx] at hbelow
        have hout : k ∉ left := fun hin =>
          hk ((hfresh k hlevel).mpr ((hsame k hlevel).mp hin))
        have hfresh' : ∀ j, level j = i → (j ∈ fresh ↔ j ∈ left) :=
          fun j hj => (hfresh j hj).trans (hsame j hj).symm
        have hnil : ∀ x ∈ ([] : List (κ × μ)), i < level x.1 :=
          fun _ hx => absurd hx List.not_mem_nil
        have hstep := ih (fun x hx => hS x (List.mem_cons_of_mem _ hx)) hfresh' hnil
        rw [List.nil_append, List.nil_append] at hstep
        rw [search_append_none hx, search_append_none hx, search_stale hout, hstep]
      · rw [search_append_some hx, search_append_some hx, Option.some_or]

/-- Level by level as much is found as depth first, once there are no more
levels than turns. -/
theorem search_eq_lockstep (h : Levelled next leaves level) (dom : Finset κ) :
    ∀ (n i : ℕ) {S : List (κ × μ)}, (∀ x ∈ S, level x.1 = i) →
      (∀ k ∈ dom, level k < i + n) →
      (search next dom S).1 = lockstep next leaves dom n S
  | 0, i, S, hS, hdom => by
      rw [lockstep, search_out]
      intro x hx hin
      have := hdom x.1 hin
      rw [hS x hx] at this
      exact absurd this (Nat.lt_irrefl i)
  | n + 1, i, S, hS, hdom => by
      have hnil : ∀ x ∈ ([] : List (κ × μ)), i < level x.1 :=
        fun _ hx => absurd hx List.not_mem_nil
      have hstep := h.search_close hS (fun j _ => Iff.refl (j ∈ dom)) hnil
      rw [List.nil_append, List.nil_append] at hstep
      rw [hstep, lockstep, h.search_eq_lockstep dom n (i + 1) (h.fire_level (h.close_level hS))]
      intro k hk
      have := hdom k hk
      omega

end Levelled
end Nawam.Priority
