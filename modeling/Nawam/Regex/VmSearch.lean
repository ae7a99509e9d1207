import Mathlib.Data.Finset.Prod
import Nawam.Regex.Vm

/-!
# The machine finds what a search finds

A thread list stands for the places that are closed under what leads on without
a character (`Holds`), and adding a thread closes them further
(`vmAddThread_close`). The loop over the threads is what `fire` does with them,
and the loop over the string is `lockstep`. So the machine answers what the search
answers that goes depth first (`vmRun_eq_search`): of the ways through a program
the one that takes the first way of each split where that leads to a match.
-/

namespace Nawam.Regex

open Priority

/-- Where an instruction can go on to lies in the program. -/
def Instr.StaysIn (n pc : ℕ) : Instr → Prop
  | .matched => True
  | .split first second => ∃ a b, first = some a ∧ second = some b ∧ a < n ∧ b < n
  | .jump target => ∃ t, target = some t ∧ t < n
  | _ => pc + 1 < n

/-- A program whose pointers are set, and that does not run off its end -/
def Runnable (program : List Instr) : Prop :=
  ∀ (pc : ℕ) (instr : Instr), program[pc]? = some instr → instr.StaysIn program.length pc

variable {program : List Instr} {string : List UInt8} {nmatches : ℕ}

theorem savedMatches_eq (nmatches : ℕ) : savedMatches nmatches = min nmatches maxMatches := by
  rw [savedMatches]
  split <;> omega

/-- The instructions that no thread has come by at a position -/
def freshAt (program : List Instr) (fresh : Finset (ℕ × ℕ)) (sp : ℕ) : Finset ℕ :=
  (Finset.range program.length).filter fun pc => (pc, sp) ∈ fresh

/-- A thread list holds the threads of the places in their order, and has marked
the instructions that are not fresh. -/
structure Holds (program : List Instr) (nmatches : ℕ) (list : VmThreadList) (sp : ℕ)
    (fresh : Finset (ℕ × ℕ)) (places : List ((ℕ × ℕ) × Matches)) : Prop where
  length : list.threads.length = program.length
  visited : ∀ (pc : ℕ) (slot : VmThread), list.threads[pc]? = some slot →
    (slot.visited = sp + 1 ↔ (pc, sp) ∉ fresh)
  le : ∀ slot ∈ list.threads, slot.visited ≤ sp + 1
  count : list.nthreads = places.length
  thread : ∀ (j : ℕ) (x : (ℕ × ℕ) × Matches), places[j]? = some x →
    ∃ slot : VmThread, list.threads[j]? = some slot ∧
      slot.pc = x.1.1 ∧ slot.matches = x.2 ∧ x.2.length = savedMatches nmatches
  room : places.length + (freshAt program fresh sp).card ≤ program.length

theorem freshAt_erase {fresh : Finset (ℕ × ℕ)} {pc sp : ℕ} (hpc : pc < program.length)
    (h : (pc, sp) ∈ fresh) :
    (freshAt program (fresh.erase (pc, sp)) sp).card + 1 =
      (freshAt program fresh sp).card := by
  have hmem : pc ∈ freshAt program fresh sp :=
    Finset.mem_filter.mpr ⟨Finset.mem_range.mpr hpc, h⟩
  have herase : freshAt program (fresh.erase (pc, sp)) sp =
      (freshAt program fresh sp).erase pc := by
    ext j
    simp only [freshAt, Finset.mem_filter, Finset.mem_erase, ne_eq, Prod.mk.injEq, and_true]
    tauto
  rw [herase]
  exact Finset.card_erase_add_one hmem

theorem freshAt_mono {fresh fresh' : Finset (ℕ × ℕ)} {sp : ℕ} (h : fresh' ⊆ fresh) :
    (freshAt program fresh' sp).card ≤ (freshAt program fresh sp).card :=
  Finset.card_le_card (Finset.monotone_filter_right _ fun _ _ hin => h hin)

namespace Holds

variable {list : VmThreadList} {sp pc : ℕ} {fresh : Finset (ℕ × ℕ)}
  {places : List ((ℕ × ℕ) × Matches)}

theorem mark (h : Holds program nmatches list sp fresh places) (hpc : pc < program.length)
    {slot : VmThread} (hslot : list.threads[pc]? = some slot) (hfresh : (pc, sp) ∈ fresh) :
    Holds program nmatches { list with
      threads := list.threads.set pc { slot with visited := sp + 1 } } sp
      (fresh.erase (pc, sp)) places where
  length := by rw [List.length_set, h.length]
  visited := by
    intro j t ht
    rw [List.getElem?_set] at ht
    by_cases hj : pc = j
    · subst hj
      rw [if_pos rfl] at ht
      split at ht
      · cases ht
        exact iff_of_true rfl (Finset.notMem_erase _ _)
      · cases ht
    · rw [if_neg hj] at ht
      have hne : (j, sp) ≠ (pc, sp) := fun heq => hj (congrArg Prod.fst heq).symm
      rw [h.visited j t ht, Finset.mem_erase, and_iff_right hne]
  le := by
    intro t ht
    rcases List.mem_or_eq_of_mem_set ht with ht | rfl
    · exact h.le t ht
    · exact Nat.le_refl _
  count := h.count
  thread := by
    intro j x hx
    obtain ⟨t, ht, hfields⟩ := h.thread j x hx
    by_cases hj : pc = j
    · subst hj
      rw [hslot] at ht
      cases ht
      refine ⟨{ slot with visited := sp + 1 }, ?_, hfields⟩
      rw [List.getElem?_set, if_pos rfl, if_pos (h.length ▸ hpc)]
    · exact ⟨t, by rw [List.getElem?_set, if_neg hj, ht], hfields⟩
  room := by
    have := freshAt_erase hpc hfresh
    have := h.room
    omega

theorem push (h : Holds program nmatches list sp fresh places)
    (hroom : places.length + (freshAt program fresh sp).card < program.length)
    {slot : VmThread} (hslot : list.threads[list.nthreads]? = some slot) {ms : Matches}
    (hms : ms.length = savedMatches nmatches) :
    Holds program nmatches ⟨list.nthreads + 1,
      list.threads.set list.nthreads { slot with pc := pc, «matches» := ms }⟩ sp fresh
      (places ++ [((pc, sp), ms)]) where
  length := by rw [List.length_set, h.length]
  visited := by
    intro j t ht
    rw [List.getElem?_set] at ht
    by_cases hj : list.nthreads = j
    · subst hj
      rw [if_pos rfl] at ht
      split at ht
      · cases ht
        exact h.visited _ slot hslot
      · cases ht
    · rw [if_neg hj] at ht
      exact h.visited j t ht
  le := by
    intro t ht
    rcases List.mem_or_eq_of_mem_set ht with ht | rfl
    · exact h.le t ht
    · exact h.le slot (List.mem_of_getElem? hslot)
  count := by rw [List.length_append, List.length_singleton, h.count]
  thread := by
    intro j x hx
    have hlt : list.nthreads < list.threads.length := (List.getElem?_eq_some_iff.mp hslot).1
    rw [List.getElem?_append] at hx
    split at hx
    case isTrue hj =>
        have hne : list.nthreads ≠ j := by rw [h.count]; omega
        obtain ⟨t, ht, hfields⟩ := h.thread j x hx
        exact ⟨t, by rw [List.getElem?_set, if_neg hne, ht], hfields⟩
    case isFalse hj =>
        have hjeq : j = list.nthreads := by
          obtain ⟨hlt', -⟩ := List.getElem?_eq_some_iff.mp hx
          rw [List.length_singleton] at hlt'
          rw [h.count]
          omega
        subst hjeq
        rw [h.count, Nat.sub_self, List.getElem?_cons_zero] at hx
        cases hx
        refine ⟨{ slot with pc := pc, «matches» := ms }, ?_, rfl, rfl, hms⟩
        rw [List.getElem?_set, if_pos rfl, if_pos hlt]
  room := by
    rw [List.length_append, List.length_singleton]
    omega

end Holds

/-- What stays in front of a character, and what passes it, is one level or the
next. -/
theorem moves_levelled : Levelled (moves program string) (waits program) Prod.snd where
  stays := by
    intro k l hk hwaits e he
    rw [moves] at hk
    rw [waits] at hwaits
    cases hinstr : program[k.1]? with
    | none =>
        rw [hinstr] at hk
        cases hk
        exact absurd he List.not_mem_nil
    | some instr =>
        rw [hinstr] at hk hwaits
        cases instr with
        | matched => cases hk
        | character _ => cases hwaits
        | anyCharacter => cases hwaits
        | characterClass _ => cases hwaits
        | characterClassNegated _ => cases hwaits
        | split first second =>
            cases hk
            obtain ⟨pc, -, rfl⟩ := List.mem_map.mp he
            rfl
        | jump target =>
            cases hk
            obtain ⟨pc, -, rfl⟩ := List.mem_map.mp he
            rfl
        | assertBegin =>
            cases hk
            split at he
            · rw [List.mem_singleton.mp he]
            · exact absurd he List.not_mem_nil
        | assertEnd =>
            cases hk
            split at he
            · rw [List.mem_singleton.mp he]
            · exact absurd he List.not_mem_nil
        | save save =>
            cases hk
            rw [List.mem_singleton.mp he]
  climbs := by
    intro k l hk hwaits e he
    rw [moves] at hk
    rw [waits] at hwaits
    cases hinstr : program[k.1]? with
    | none =>
        rw [hinstr] at hwaits
        cases hwaits
    | some instr =>
        rw [hinstr] at hk hwaits
        have hpass : e ∈ (if string.getD k.2 0 ≠ Ascii.nul ∧
            passes instr (string.getD k.2 0) = some true then [((k.1 + 1, k.2 + 1), id)]
            else [] : Edges (ℕ × ℕ) Matches) → e.1.2 = k.2 + 1 := by
          intro he
          split at he
          · rw [List.mem_singleton.mp he]
          · exact absurd he List.not_mem_nil
        cases instr with
        | character _ => cases hk; exact hpass he
        | anyCharacter => cases hk; exact hpass he
        | characterClass _ => cases hk; exact hpass he
        | characterClassNegated _ => cases hk; exact hpass he
        | matched => cases hwaits
        | split _ _ => cases hwaits
        | jump _ => cases hwaits
        | assertBegin => cases hwaits
        | assertEnd => cases hwaits
        | save _ => cases hwaits

/-- A place that accepts or waits is closed by the thread that is put there. -/
theorem Holds.push_close {list : VmThreadList} {sp pc : ℕ} {fresh : Finset (ℕ × ℕ)}
    {places : List ((ℕ × ℕ) × Matches)} {ms : Matches} {l : Option (Edges (ℕ × ℕ) Matches)}
    (h : Holds program nmatches list sp (fresh.erase (pc, sp)) places) (hfresh : (pc, sp) ∈ fresh)
    (hroom : places.length + (freshAt program (fresh.erase (pc, sp)) sp).card < program.length)
    (hms : savedMatches nmatches ≤ ms.length) (hl : moves program string (pc, sp) = l)
    (hkind : l = none ∨ waits program (pc, sp) = true) :
    Achieves (do
      let slot ← entry list.threads list.nthreads
      .ok (⟨list.nthreads + 1, list.threads.set list.nthreads { slot with
        pc := pc, «matches» := ms.take (savedMatches nmatches) }⟩ : VmThreadList))
      fun list' => Holds program nmatches list' sp
        (close (moves program string) (waits program) fresh
          [((pc, sp), ms.take (savedMatches nmatches))]).2
        (places ++ (close (moves program string) (waits program) fresh
          [((pc, sp), ms.take (savedMatches nmatches))]).1) := by
  have hlt : list.nthreads < list.threads.length := by
    rw [h.length, h.count]
    omega
  have hclose : close (moves program string) (waits program) fresh
      [((pc, sp), ms.take (savedMatches nmatches))] =
        ([((pc, sp), ms.take (savedMatches nmatches))], fresh.erase (pc, sp)) := by
    cases l with
    | none => rw [close_accept hfresh hl, close_nil]
    | some l => rw [close_leave hfresh hl (hkind.resolve_left (Option.some_ne_none l)), close_nil]
  rw [entry_of_getElem? (List.getElem?_eq_getElem hlt), C.ok_bind, hclose]
  exact .ok (h.push hroom (List.getElem?_eq_getElem hlt) (List.length_take_of_le hms))

theorem load_getD {i : ℕ} (h : i < string.length) : load string i = .ok (string.getD i 0) := by
  rw [load_of_lt h, List.getD_eq_getElem _ _ h]

/-- Adding a thread closes the list under what can be come to without a
character. The character itself is read for a `$`. -/
theorem vmAddThread_close (hrun : Runnable program) : ∀ (depth : ℕ) {list : VmThreadList}
    {sp pc : ℕ} {fresh : Finset (ℕ × ℕ)} {places : List ((ℕ × ℕ) × Matches)} {ms : Matches},
    (.assertEnd ∈ program → sp < string.length) → pc < program.length →
    savedMatches nmatches ≤ ms.length →
    Holds program nmatches list sp fresh places → (freshAt program fresh sp).card < depth →
    Achieves (vmAddThread program string nmatches depth list pc sp ms) fun list' =>
      Holds program nmatches list' sp
        (close (moves program string) (waits program) fresh
          [((pc, sp), ms.take (savedMatches nmatches))]).2
        (places ++ (close (moves program string) (waits program) fresh
          [((pc, sp), ms.take (savedMatches nmatches))]).1)
  | 0, _, _, _, _, _, _, _, _, _, _, hdepth => absurd hdepth (Nat.not_lt_zero _)
  | depth + 1, list, sp, pc, fresh, places, ms, hsp, hpc, hms, h, hdepth => by
      obtain ⟨slot, hslot⟩ : ∃ slot, list.threads[pc]? = some slot :=
        ⟨_, List.getElem?_eq_getElem (h.length ▸ hpc)⟩
      have hinstr : program[pc]? = some program[pc] := List.getElem?_eq_getElem hpc
      have hstays := hrun pc _ hinstr
      generalize program[pc] = instr at hinstr hstays
      rw [vmAddThread, entry_of_getElem? hslot, C.ok_bind]
      by_cases hfresh : (pc, sp) ∈ fresh
      case neg =>
          rw [if_pos ((h.visited pc slot hslot).mpr hfresh), close_stale hfresh, close_nil,
            List.append_nil]
          exact .ok h
      have hnew : ¬slot.visited = sp + 1 := fun hv => (h.visited pc slot hslot).mp hv hfresh
      have hmark := h.mark hpc hslot hfresh
      have hcard := freshAt_erase hpc hfresh
      have hroom := h.room
      simp only [if_neg hnew, entry_of_getElem? hinstr, C.ok_bind]
      have hnext := fun {pc' : ℕ} {ms' : Matches} (hpc' : pc' < program.length)
          (hms' : savedMatches nmatches ≤ ms'.length) =>
        vmAddThread_close hrun depth hsp hpc' hms' hmark (by omega)
      have hwaits : waits program (pc, sp) = (passes instr 0).isSome := by rw [waits, hinstr]
      have hpush := fun {l : Option (Edges (ℕ × ℕ) Matches)}
          (hl : moves program string (pc, sp) = l)
          (hkind : l = none ∨ waits program (pc, sp) = true) =>
        hmark.push_close hfresh (by omega) hms hl hkind
      cases instr with
      | matched =>
          exact hpush (l := none) (by rw [moves, hinstr]) (.inl rfl)
      | character _ => exact hpush rfl (.inr hwaits)
      | anyCharacter => exact hpush rfl (.inr hwaits)
      | characterClass _ => exact hpush rfl (.inr hwaits)
      | characterClassNegated _ => exact hpush rfl (.inr hwaits)
      | split first second =>
          obtain ⟨a, b, rfl, rfl, ha, hb⟩ := hstays
          have hmoves : moves program string (pc, sp) = some [((a, sp), id), ((b, sp), id)] := by
            rw [moves, hinstr]
            rfl
          simp only [pointedTo, C.ok_bind]
          refine (hnext ha hms).bind fun list' h' => ?_
          have hsub : (close (moves program string) (waits program) (fresh.erase (pc, sp))
              [((a, sp), ms.take (savedMatches nmatches))]).2 ⊆ fresh.erase (pc, sp) :=
            close_subset
          have hdepth' : (freshAt program _ sp).card ≤ (freshAt program _ sp).card :=
            freshAt_mono hsub
          refine (vmAddThread_close hrun depth hsp hb hms h' (by omega)).mono fun list'' h'' => ?_
          rw [List.append_assoc] at h''
          rw [close_stay hfresh hmoves hwaits]
          simp only [carry_cons, carry_nil, id_eq, List.append_nil]
          rw [← List.singleton_append, close_append]
          exact h''
      | jump target =>
          obtain ⟨t, rfl, ht⟩ := hstays
          have hmoves : moves program string (pc, sp) = some [((t, sp), id)] := by
            rw [moves, hinstr]
            rfl
          simp only [pointedTo, C.ok_bind]
          rw [close_stay hfresh hmoves hwaits]
          exact hnext ht hms
      | assertBegin =>
          by_cases hzero : sp = 0
          · have hmoves : moves program string (pc, sp) = some [((pc + 1, sp), id)] := by
              rw [moves, hinstr]
              simp only [if_pos hzero]
            simp only [if_pos hzero]
            rw [close_stay hfresh hmoves hwaits]
            exact hnext hstays hms
          · have hmoves : moves program string (pc, sp) = some [] := by
              rw [moves, hinstr]
              simp only [if_neg hzero]
            simp only [if_neg hzero]
            rw [close_stay hfresh hmoves hwaits, carry_nil, List.nil_append, close_nil,
              List.append_nil]
            exact .ok hmark
      | assertEnd =>
          simp only [load_getD (hsp (List.mem_of_getElem? hinstr)), C.ok_bind]
          by_cases hend : string.getD sp 0 = Ascii.nul
          · have hmoves : moves program string (pc, sp) = some [((pc + 1, sp), id)] := by
              rw [moves, hinstr]
              simp only [if_pos hend]
            simp only [if_pos hend]
            rw [close_stay hfresh hmoves hwaits]
            exact hnext hstays hms
          · have hmoves : moves program string (pc, sp) = some [] := by
              rw [moves, hinstr]
              simp only [if_neg hend]
            simp only [if_neg hend]
            rw [close_stay hfresh hmoves hwaits, carry_nil, List.nil_append, close_nil,
              List.append_nil]
            exact .ok hmark
      | save save =>
          have hmoves : moves program string (pc, sp) =
              some [((pc + 1, sp), fun ms => ms.set save (some sp))] := by
            rw [moves, hinstr]
          rw [close_stay hfresh hmoves hwaits, carry_cons, carry_nil, List.append_nil]
          have hsaved := savedMatches_eq nmatches
          by_cases hsave : save < nmatches ∧ save < maxMatches
          · have hset : (ms.set save (some sp)).take (savedMatches nmatches) =
                (ms.take (savedMatches nmatches)).set save (some sp) := List.take_set ..
            simp only [if_pos hsave]
            rw [← hset]
            exact hnext hstays (by rw [List.length_set]; exact hms)
          · have hset : (ms.take (savedMatches nmatches)).set save (some sp) =
                ms.take (savedMatches nmatches) := by
              rw [List.set_eq_of_length_le]
              rw [List.length_take_of_le hms]
              omega
            simp only [if_neg hsave, hset]
            exact hnext hstays hms

/-- All the places of the program in the string, and right behind it -/
def allPlaces (program : List Instr) (string : List UInt8) : Finset (ℕ × ℕ) :=
  Finset.range program.length ×ˢ Finset.range (string.length + 1)

/-- A thread list without threads, whose marks are of the positions in front -/
structure Stale (program : List Instr) (list : VmThreadList) (sp : ℕ) : Prop where
  length : list.threads.length = program.length
  visited : ∀ slot ∈ list.threads, slot.visited ≤ sp
  count : list.nthreads = 0

theorem Stale.holds {list : VmThreadList} {sp : ℕ} (h : Stale program list sp)
    (hsp : sp ≤ string.length) :
    Holds program nmatches list sp (allPlaces program string) [] where
  length := h.length
  visited := by
    intro pc slot hslot
    have hle := h.visited slot (List.mem_of_getElem? hslot)
    have hpc : pc < program.length := h.length ▸ (List.getElem?_eq_some_iff.mp hslot).1
    have hin : (pc, sp) ∈ allPlaces program string :=
      Finset.mem_product.mpr ⟨Finset.mem_range.mpr hpc,
        Finset.mem_range.mpr (Nat.lt_succ_of_le hsp)⟩
    exact iff_of_false (by omega) (not_not.mpr hin)
  le := fun slot hslot => (h.visited slot hslot).trans (Nat.le_succ sp)
  count := h.count
  thread := by
    intro j x hx
    cases hx
  room := by
    rw [List.length_nil, Nat.zero_add]
    exact (Finset.card_filter_le _ _).trans (Finset.card_range _).le

theorem Holds.stale {list : VmThreadList} {sp : ℕ} {fresh : Finset (ℕ × ℕ)}
    {places : List ((ℕ × ℕ) × Matches)} (h : Holds program nmatches list sp fresh places) :
    Stale program { list with nthreads := 0 } (sp + 1) :=
  ⟨h.length, h.le, rfl⟩

/-- What the machine answers once a thread has matched -/
def reached (nmatches : ℕ) (before : Bool × Matches) : Option Matches → Bool × Matches
  | none => before
  | some ms => (true, ms ++ before.2.drop (savedMatches nmatches))

/-- A later match takes the place of an earlier one. -/
theorem reached_reached {before : Bool × Matches} {earlier later : Option Matches}
    (h : ∀ ms, earlier = some ms → ms.length = savedMatches nmatches) :
    reached nmatches (reached nmatches before earlier) later =
      reached nmatches before (later.or earlier) := by
  cases later with
  | none => rw [Option.none_or]; rfl
  | some later =>
      cases earlier with
      | none => rfl
      | some ms =>
          rw [Option.some_or, reached, reached, reached, List.drop_left' (h ms rfl)]

/-- What an instruction that waits for a character leads to -/
theorem moves_waiting {pc sp : ℕ} {instr : Instr} (hinstr : program[pc]? = some instr)
    (hwaits : (passes instr 0).isSome = true) :
    moves program string (pc, sp) =
      some (if string.getD sp 0 ≠ Ascii.nul ∧ passes instr (string.getD sp 0) = some true
        then [((pc + 1, sp + 1), id)] else []) := by
  rw [moves, hinstr]
  cases instr with
  | character _ => rfl
  | anyCharacter => rfl
  | characterClass _ => rfl
  | characterClassNegated _ => rfl
  | _ => cases hwaits

theorem passes_eq_some {instr : Instr} (hwaits : (passes instr 0).isSome = true) (c : UInt8) :
    ∃ b, passes instr c = some b := by
  cases instr with
  | character _ => exact ⟨_, rfl⟩
  | anyCharacter => exact ⟨_, rfl⟩
  | characterClass _ => exact ⟨_, rfl⟩
  | characterClassNegated _ => exact ⟨_, rfl⟩
  | _ => cases hwaits

theorem staysIn_waiting {n pc : ℕ} {instr : Instr} (hwaits : (passes instr 0).isSome = true)
    (h : instr.StaysIn n pc) : pc + 1 < n := by
  cases instr with
  | character _ => exact h
  | anyCharacter => exact h
  | characterClass _ => exact h
  | characterClassNegated _ => exact h
  | _ => cases hwaits

/-- A thread that waits for a character goes on or is dropped. -/
theorem vmStepThreads_waiting {current : VmThreadList} {sp turns i : ℕ} {state : VmState}
    {slot : VmThread} {instr : Instr} (hslot : current.threads[i]? = some slot)
    (hinstr : program[slot.pc]? = some instr) (hwaits : (passes instr 0).isSome = true) :
    vmStepThreads program string nmatches current sp (turns + 1) i state =
      load string sp >>= fun c =>
        match passes instr c with
        | none => .error .assertion
        | some false => vmStepThreads program string nmatches current sp turns (i + 1) state
        | some true =>
            vmAddThread program string nmatches (program.length + 1) state.next
              (slot.pc + 1) (sp + 1) slot.matches >>= fun added =>
              vmStepThreads program string nmatches current sp turns (i + 1)
                { state with next := added } := by
  rw [vmStepThreads, entry_of_getElem? hslot, C.ok_bind, entry_of_getElem? hinstr, C.ok_bind]
  cases instr with
  | character _ => rfl
  | anyCharacter => rfl
  | characterClass _ => rfl
  | characterClassNegated _ => rfl
  | _ => cases hwaits

/-- A `$` can be come to behind what lets the NUL pass, as a negated class does: the byte
behind the string is read. -/
def ReadsBehind (program : List Instr) : Prop :=
  .assertEnd ∈ program ∧ ∃ instr ∈ program, passes instr Ascii.nul = some true

section Loop

variable (hrun : Runnable program) {sp : ℕ} (hsp : sp < string.length)
  (hahead : string.getD sp 0 ≠ Ascii.nul ∨ ReadsBehind program → sp + 1 < string.length)
include hrun hsp hahead

/-- The loop over the threads goes on with what they lead to, up to the first
that matches. -/
theorem vmStepThreads_fire {current : VmThreadList} {fresh : Finset (ℕ × ℕ)}
    {places : List ((ℕ × ℕ) × Matches)}
    (hcurrent : Holds program nmatches current sp fresh places)
    (hplaces : ∀ x ∈ places, x.1.2 = sp ∧
      (moves program string x.1 = none ∨ waits program x.1 = true)) :
    ∀ (turns i : ℕ) {state : VmState} {N ahead : List ((ℕ × ℕ) × Matches)}
      {left : Finset (ℕ × ℕ)}, i + turns = places.length →
      Holds program nmatches state.next (sp + 1) left ahead →
      (string.getD sp 0 ≠ Ascii.nul → close (moves program string) (waits program)
        (allPlaces program string) N = (ahead, left)) →
      Achieves (vmStepThreads program string nmatches current sp turns i state) fun state' =>
        (state'.matched, state'.matches) = reached nmatches (state.matched, state.matches)
          (fire (moves program string) (places.drop i)).1 ∧
        ∃ left' ahead', Holds program nmatches state'.next (sp + 1) left' ahead' ∧
          (string.getD sp 0 ≠ Ascii.nul → close (moves program string) (waits program)
            (allPlaces program string)
            (N ++ (fire (moves program string) (places.drop i)).2) = (ahead', left'))
  | 0, i, state, N, ahead, left, hi, hnext, hclose => by
      rw [vmStepThreads, List.drop_of_length_le (by omega), fire, List.append_nil]
      exact .ok ⟨rfl, left, ahead, hnext, hclose⟩
  | turns + 1, i, state, N, ahead, left, hi, hnext, hclose => by
      have hlt : i < places.length := by omega
      have hdrop : places.drop i = places[i] :: places.drop (i + 1) :=
        (List.drop_eq_getElem_cons hlt)
      obtain ⟨slot, hslot, hpc, hms, hlength⟩ :=
        hcurrent.thread i _ (List.getElem?_eq_getElem hlt)
      obtain ⟨hlevel, hkind⟩ := hplaces _ (List.getElem_mem hlt)
      generalize places[i] = x at hdrop hpc hms hlength hlevel hkind
      obtain ⟨⟨pc, sp'⟩, ms⟩ := x
      simp only at hpc hms hlength hlevel hkind
      subst hpc hms
      obtain rfl : sp = sp' := hlevel.symm
      rw [hdrop, fire]
      cases hinstr : program[slot.pc]? with
      | none =>
          rw [moves, waits, hinstr] at hkind
          rcases hkind with hkind | hkind <;> cases hkind
      | some instr =>
          by_cases hwaits : (passes instr 0).isSome = true
          case neg =>
              have haccept : moves program string (slot.pc, sp) = none := by
                refine hkind.resolve_right fun hw => hwaits ?_
                rwa [waits, hinstr] at hw
              have hmatched : instr = .matched := by
                rw [moves, hinstr] at haccept
                cases instr with
                | matched => rfl
                | _ => cases haccept
              subst hmatched
              rw [vmStepThreads, entry_of_getElem? hslot, C.ok_bind, entry_of_getElem? hinstr, C.ok_bind]
              simp only [haccept, List.append_nil]
              exact .ok ⟨rfl, left, ahead, hnext, hclose⟩
          case pos =>
              have hpc : slot.pc < program.length := (List.getElem?_eq_some_iff.mp hinstr).1
              have hroom : (freshAt program left (sp + 1)).card < program.length + 1 :=
                Nat.lt_succ_of_le ((Finset.card_filter_le _ _).trans (Finset.card_range _).le)
              obtain ⟨b, hb⟩ := passes_eq_some hwaits (string.getD sp 0)
              rw [vmStepThreads_waiting hslot hinstr hwaits, load_getD hsp, C.ok_bind, hb]
              have hmoves : moves program string (slot.pc, sp) = _ := moves_waiting hinstr hwaits
              cases b with
              | false =>
                  have hstop : moves program string (slot.pc, sp) = some [] := by
                    rw [hmoves, hb, if_neg fun h => by cases h.2]
                  simp only [hstop, carry_nil, List.nil_append]
                  exact vmStepThreads_fire hcurrent hplaces turns (i + 1) (by omega) hnext hclose
              | true =>
                  have hread : .assertEnd ∈ program → sp + 1 < string.length := by
                    intro hend
                    by_cases hnul : string.getD sp 0 = Ascii.nul
                    · rw [hnul] at hb
                      exact hahead (.inr ⟨hend, instr, List.mem_of_getElem? hinstr, hb⟩)
                    · exact hahead (.inl hnul)
                  have hadd := vmAddThread_close hrun (program.length + 1) hread
                    (staysIn_waiting hwaits (hrun _ _ hinstr)) hlength.ge hnext hroom
                  rw [List.take_of_length_le hlength.le] at hadd
                  simp only
                  refine hadd.bind fun next' hnext' => ?_
                  by_cases hnul : string.getD sp 0 = Ascii.nul
                  · -- the string ends here: what is added is not gone on with
                    have hstop : moves program string (slot.pc, sp) = some [] := by
                      rw [hmoves, if_neg fun h => h.1 hnul]
                    simp only [hstop, carry_nil, List.nil_append]
                    exact vmStepThreads_fire hcurrent hplaces turns (i + 1) (N := N) (by omega)
                      hnext' fun hne => absurd hnul hne
                  · have hgo : moves program string (slot.pc, sp) =
                        some [((slot.pc + 1, sp + 1), id)] := by
                      rw [hmoves, if_pos ⟨hnul, hb⟩]
                    have hclose' : close (moves program string) (waits program)
                        (allPlaces program string)
                        (N ++ [((slot.pc + 1, sp + 1), slot.matches)]) =
                          (ahead ++ (close (moves program string) (waits program) left
                              [((slot.pc + 1, sp + 1), slot.matches)]).1,
                            (close (moves program string) (waits program) left
                              [((slot.pc + 1, sp + 1), slot.matches)]).2) := by
                      rw [close_append, hclose hnul]
                    have hih := vmStepThreads_fire hcurrent hplaces turns (i + 1) (by omega)
                      (show Holds program nmatches { state with next := next' }.next _ _ _
                        from hnext') fun _ => hclose'
                    rw [List.append_assoc] at hih
                    simp only [hgo, carry_cons, carry_nil, id_eq]
                    exact hih

end Loop

/-- The string ends at `len`, with a NUL. -/
structure Ends (string : List UInt8) (len : ℕ) : Prop where
  inside : ∀ i < len, string.getD i 0 ≠ Ascii.nul
  nul : string.getD len 0 = Ascii.nul
  readable : len < string.length

/-- Nothing leads on from the end of the string. -/
theorem fire_at_nul {sp : ℕ} (hnul : string.getD sp 0 = Ascii.nul) :
    ∀ {places : List ((ℕ × ℕ) × Matches)}, (∀ x ∈ places, x.1.2 = sp ∧
      (moves program string x.1 = none ∨ waits program x.1 = true)) →
      (fire (moves program string) places).2 = []
  | [], _ => rfl
  | ((pc, sp'), ms) :: places, h => by
      obtain ⟨hlevel, hkind⟩ := h _ List.mem_cons_self
      have hrest := fire_at_nul hnul fun x hx => h x (List.mem_cons_of_mem _ hx)
      simp only at hlevel hkind
      subst hlevel
      rw [fire]
      rcases hkind with hkind | hkind
      · simp only [hkind]
      · have hstop : moves program string (pc, sp') = some [] := by
          rw [waits] at hkind
          cases hinstr : program[pc]? with
          | none =>
              rw [hinstr] at hkind
              cases hkind
          | some instr =>
              rw [hinstr] at hkind
              rw [moves_waiting hinstr hkind, if_neg fun h => h.1 hnul]
        simp only [hstop, hrest]
        rfl

/-- From a position on, the machine finds what the search level by level finds. -/
theorem vmRunFrom_lockstep (hrun : Runnable program) {len : ℕ} (hends : Ends string len)
    (hbehind : ReadsBehind program → len + 1 < string.length) :
    ∀ (turns levels : ℕ) {sp : ℕ} {current : VmThreadList} {state : VmState}
      {L : List ((ℕ × ℕ) × Matches)} {left : Finset (ℕ × ℕ)}, sp ≤ len →
      len < sp + turns → len < sp + levels → (∀ x ∈ L, x.1.2 = sp) →
      close (moves program string) (waits program) (allPlaces program string) L =
        ((close (moves program string) (waits program) (allPlaces program string) L).1, left) →
      Holds program nmatches current sp left
        (close (moves program string) (waits program) (allPlaces program string) L).1 →
      Stale program state.next sp →
      vmRunFrom program string nmatches turns sp current state =
        .ok (reached nmatches (state.matched, state.matches)
          (lockstep (moves program string) (waits program) (allPlaces program string) levels L))
  | 0, _, sp, _, _, _, _, hsp, hturns, _, _, _, _, _ => absurd hturns (by omega)
  | _ + 1, 0, sp, _, _, _, _, hsp, _, hlevels, _, _, _, _ => absurd hlevels (by omega)
  | turns + 1, levels + 1, sp, current, state, L, left, hsp, hturns, hlevels, hL, hclose,
      hcurrent, hnext => by
      have hplaces : ∀ x ∈ (close (moves program string) (waits program)
          (allPlaces program string) L).1, _ := moves_levelled.close_level hL
      have hreadable : sp < string.length := hsp.trans_lt hends.readable
      have hlast : string.getD sp 0 ≠ Ascii.nul → sp < len := by
        intro hne
        rcases Nat.lt_or_eq_of_le hsp with hlt | rfl
        · exact hlt
        · exact absurd hends.nul hne
      have hahead : string.getD sp 0 ≠ Ascii.nul ∨ ReadsBehind program →
          sp + 1 < string.length := by
        rintro (hne | hreads)
        · exact (Nat.succ_le_of_lt (hlast hne)).trans_lt hends.readable
        · exact (Nat.succ_le_succ hsp).trans_lt (hbehind hreads)
      have hstale : Stale program state.next (sp + 1) :=
        ⟨hnext.length, fun slot hslot => (hnext.visited slot hslot).trans (Nat.le_succ sp),
          hnext.count⟩
      generalize hT : (close (moves program string) (waits program)
        (allPlaces program string) L).1 = T at hcurrent hplaces
      obtain ⟨state', hstep, hreached, left', ahead', hnext', hclose'⟩ :=
        vmStepThreads_fire hrun hreadable hahead hcurrent hplaces T.length 0 (Nat.zero_add _)
          (hstale.holds hreadable) (N := []) fun _ => close_nil
      rw [List.drop_zero, List.nil_append] at hclose'
      rw [List.drop_zero] at hreached
      have hlength : ∀ ms, (fire (moves program string) T).1 = some ms →
          ms.length = savedMatches nmatches := by
        intro ms hms
        obtain ⟨k, hk, -⟩ := fire_mem hms
        obtain ⟨j, hj⟩ := List.mem_iff_getElem?.mp hk
        obtain ⟨_, -, -, -, hlen⟩ := hcurrent.thread j _ hj
        exact hlen
      have hcomposed : ∀ later, reached nmatches (state.matched, state.matches)
          (later.or (fire (moves program string) T).1) =
            reached nmatches (state'.matched, state'.matches) later := by
        intro later
        rw [hreached, reached_reached hlength]
      rw [lockstep, hT, hcomposed, vmRunFrom, hcurrent.count, hstep, C.ok_bind]
      simp only
      by_cases hnul : string.getD sp 0 = Ascii.nul
      · -- the end of the string
        rw [fire_at_nul hnul hplaces, lockstep_nil, load_getD hreadable, C.ok_bind, if_pos hnul,
          ite_self]
        rfl
      · have hlt : sp < len := hlast hnul
        have hfire := moves_levelled.fire_level hplaces
        have hclosed := hclose' hnul
        by_cases hnone : state'.next.nthreads = 0
        · have hahead : ahead' = [] := List.length_eq_zero_iff.mp (hnext'.count.symm.trans hnone)
          rw [if_pos hnone, lockstep_of_close_nil]
          · rfl
          · rw [hclosed, hahead]
        · rw [if_neg hnone, load_getD hreadable, C.ok_bind, if_neg hnul]
          have hfirst : (close (moves program string) (waits program) (allPlaces program string)
              (fire (moves program string) T).2).1 = ahead' := congrArg Prod.fst hclosed
          rw [← hfirst] at hclosed hnext'
          exact vmRunFrom_lockstep hrun hends hbehind turns levels (by omega) (by omega) (by omega) hfire
            hclosed hnext' hcurrent.stale

/-- The machine finds what the search finds that goes depth first and takes the
first way of a split first, and never comes by an access outside of its arrays. -/
theorem vmRunWithThreads_eq_search (hrun : Runnable program) (hne : program ≠ []) {len : ℕ}
    (hends : Ends string len) (hbehind : ReadsBehind program → len + 1 < string.length)
    (nmatches : ℕ) {threads : ℕ} (hthreads : program.length * 2 ≤ threads) :
    vmRunWithThreads program string nmatches threads =
      .ok (reached nmatches (false, List.replicate nmatches none)
        (search (moves program string) (allPlaces program string)
          [((0, 0), List.replicate (savedMatches nmatches) none)]).1) := by
  have hpos : 0 < program.length := List.length_pos_iff.mpr hne
  have hreadable : 0 < string.length := (Nat.zero_le len).trans_lt hends.readable
  have hsaved := savedMatches_eq nmatches
  have hempty : Stale program ⟨0, List.replicate program.length ⟨0, 0, []⟩⟩ 0 := by
    refine ⟨List.length_replicate, fun slot hslot => ?_, rfl⟩
    rw [(List.mem_replicate.mp hslot).2]
  have hroom : (freshAt program (allPlaces program string) 0).card < program.length + 1 :=
    Nat.lt_succ_of_le ((Finset.card_filter_le _ _).trans (Finset.card_range _).le)
  have hlength : savedMatches nmatches ≤ (List.replicate nmatches (none : Option ℕ)).length := by
    rw [List.length_replicate]
    omega
  obtain ⟨current, hadd, hcurrent⟩ := vmAddThread_close hrun (program.length + 1)
    (fun _ => hreadable) hpos hlength (hempty.holds hreadable.le) hroom
  have hinit : (List.replicate nmatches (none : Option ℕ)).take (savedMatches nmatches) =
      List.replicate (savedMatches nmatches) none := by
    rw [List.take_replicate]
    congr 1
    omega
  rw [List.nil_append, hinit] at hcurrent
  rw [vmRunWithThreads, if_neg (not_lt.mpr hthreads)]
  dsimp only
  rw [hadd, C.ok_bind, vmRunFrom_lockstep hrun hends hbehind string.length (string.length + 1)
      (Nat.zero_le _) (by have := hends.readable; omega) (by have := hends.readable; omega)
      (L := [((0, 0), List.replicate (savedMatches nmatches) none)]) ?_ rfl hcurrent hempty,
    moves_levelled.search_eq_lockstep (allPlaces program string) (string.length + 1) 0]
  · intro x hx
    rw [List.mem_singleton.mp hx]
  · intro k hk
    have := Finset.mem_range.mp (Finset.mem_product.mp hk).2
    omega
  · intro x hx
    rw [List.mem_singleton.mp hx]

/-- Both lists of threads fit the block that is allocated for them, unless the program is
so long that none is. -/
theorem vmEstimateThreads_eq (h : program.length < 2 ^ 30) :
    vmEstimateThreads program = (program.length * 2 : ℕ) := by
  rw [vmEstimateThreads, int32, Nat.cast_mul]
  exact Int.bmod_eq_of_le (by omega) (by omega)

theorem vmRun_eq_search (hrun : Runnable program) (hne : program ≠ [])
    (hshort : program.length < 2 ^ 30) {len : ℕ} (hends : Ends string len)
    (hbehind : ReadsBehind program → len + 1 < string.length) (nmatches : ℕ) :
    vmRun program string nmatches =
      .ok (some (reached nmatches (false, List.replicate nmatches none)
        (search (moves program string) (allPlaces program string)
          [((0, 0), List.replicate (savedMatches nmatches) none)]).1)) := by
  have hestimate := vmEstimateThreads_eq hshort
  have hnonneg : ¬vmEstimateThreads program < 0 := by omega
  have hthreads : program.length * 2 ≤ (vmEstimateThreads program).toNat := by omega
  rw [vmRun, if_neg hnonneg, vmRunWithThreads_eq_search hrun hne hends hbehind nmatches hthreads,
    C.ok_bind]

end Nawam.Regex
