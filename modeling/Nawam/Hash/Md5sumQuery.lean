import Mathlib.Data.List.Forall2
import Nawam.Base.Search

/-!
# Is a file in md5sum.txt

`is_in_md5sum` of `iso.c`, which `_print_extracted_file` asks for every file of
an image. It looks for `" ./path"` in front of the end of a line, from where it
was found last to the end of the list, and then once more from the beginning,
with the list cut off where the first search ended.

The cut is where it goes wrong: the NUL that is put there ends a line as well.
A search that comes by the beginning of a longer path cuts the list right
behind it, and takes it for the path itself when it comes by again.
-/

namespace Nawam

open Ascii

/-! ## Source -/

/-- `fd_md5sum != NULL`, `md5sum_size`, `md5sum_data` and `md5sum_pos` -/
structure Md5sumList where
  creating : Bool
  size : ℕ
  data : List UInt8
  pos : ℕ
deriving DecidableEq, Repr

/-- The loop that caters for partial matches. -/
def skipPartial (path data : List UInt8) : ℕ → ℕ → Option ℕ → C (ℕ × Option ℕ)
  | 0, _, _ => .error .outOfFuel
  | _ + 1, pos, none => return (pos, none)
  | fuel + 1, pos, some p => do
      let c ← load data (p + path.length)
      if c = lf ∨ c = cr ∨ c = nul then return (pos, some p)
      else
        let pos := p + path.length
        let p ← strstrFrom path data pos
        skipPartial path data fuel pos p

/-- `p = strstr(pos, path);` and the loop behind it -/
def searchFull (path data : List UInt8) (pos : ℕ) : C (ℕ × Option ℕ) := do
  let p ← strstrFrom path data pos
  skipPartial path data (data.length + 1) pos p

/-- The search from the beginning, with a NUL at `pos` while it goes on. -/
def searchFront (path data : List UInt8) (pos : ℕ) : C (Option ℕ × List UInt8) := do
  let c ← load data pos
  let cut ← store data pos nul
  let (_, p) ← searchFull path cut 0
  let data ← store cut pos c
  return (p, data)

/-- The searches for a path that is `" ./xyz"` by now. -/
def searchBoth (path : List UInt8) (list : Md5sumList) :
    C (Option ℕ × List UInt8) := do
  let (pos, p) ← searchFull path list.data list.pos
  if p = none ∧ pos ≠ 0 then searchFront path list.data pos
  else return (p, list.data)

/-- `is_in_md5sum`: the answer, the list and the path. -/
def isInMd5sum (list : Md5sumList) (path : List UInt8) :
    C (Bool × Md5sumList × List UInt8) :=
  if list.creating then return (true, list, path)
  else if list.size = 0 ∨ list.data = [] then return (false, list, path)
  else do
    let c0 ← load path 0
    let c1 ← load path 1
    let c2 ← load path 2
    assertThat (c1 = colon ∧ c2 = 47)
    let path ← store path 0 space
    let path ← store path 1 dot
    let xyz ← cstrAt path 0
    let (p, data) ← searchBoth xyz list
    let path ← store path 0 c0
    let path ← store path 1 c1
    return (p.isSome,
      { list with data := data, pos := (p.map (· + xyz.length)).getD list.pos }, path)

/-- Some queries, one after the other: where each one started, what it answered
and what it left of its path. -/
def isInMd5sumAll (list : Md5sumList) :
    List (List UInt8) → C (List (ℕ × Bool × List UInt8) × Md5sumList)
  | [] => return ([], list)
  | path :: paths => do
      let (found, list', path') ← isInMd5sum list path
      let (log, last) ← isInMd5sumAll list' paths
      return ((list.pos, found, path') :: log, last)

/-! ## Lines -/

/-- `'\n'` or `'\r'` -/
def isBreak (c : UInt8) : Bool := c = lf || c = cr

/-- A line is as much as there is between two breaks. -/
def IsLine (text line : List UInt8) : Prop :=
  ∃ before after, text = before ++ (line ++ after) ∧
    (∀ c ∈ before.getLast?, isBreak c = true) ∧
    (∀ c ∈ line, isBreak c = false) ∧ ∀ c ∈ after.head?, isBreak c = true

/-- A line ends there, by a break or with the text. -/
def EndsLine (text : List UInt8) (i : ℕ) : Prop :=
  ∀ c ∈ (text.drop i).head?, isBreak c = true

/-- A line of the text ends with the needle. -/
def Listed (text needle : List UInt8) : Prop :=
  ∃ line, IsLine text line ∧ needle <:+ line

theorem exists_line_start : ∀ text : List UInt8, ∃ before line,
    text = before ++ line ∧ (∀ c ∈ before.getLast?, isBreak c = true) ∧
      ∀ c ∈ line, isBreak c = false := by
  intro text
  induction text using List.reverseRecOn with
  | nil => exact ⟨[], [], rfl, nofun, nofun⟩
  | append_singleton text c ih =>
      by_cases hc : isBreak c = true
      · refine ⟨text ++ [c], [], by rw [List.append_nil], ?_, nofun⟩
        intro d hd
        rw [List.getLast?_append, List.getLast?_singleton] at hd
        cases hd
        exact hc
      · obtain ⟨before, line, rfl, hbefore, hline⟩ := ih
        refine ⟨before, line ++ [c], by rw [List.append_assoc], hbefore, ?_⟩
        intro d hd
        rcases List.mem_append.mp hd with hd | hd
        · exact hline d hd
        · rw [List.mem_singleton.mp hd]
          exact Bool.eq_false_iff.mpr hc

/-- What has no break in it is at the end of a line where the line ends behind
it. -/
theorem listed_iff {text needle : List UInt8}
    (hneedle : ∀ c ∈ needle, isBreak c = false) :
    Listed text needle ↔
      ∃ p, Occurs needle text p ∧ EndsLine text (p + needle.length) := by
  constructor
  · rintro ⟨line, ⟨before, after, rfl, -, -, hafter⟩, front, rfl⟩
    refine ⟨(before ++ front).length, ?_, ?_⟩
    · rw [Occurs, List.append_assoc front, ← List.append_assoc before,
        List.drop_left]
      exact List.prefix_append ..
    · rw [EndsLine, List.append_assoc front, ← List.append_assoc before,
        ← List.append_assoc, List.drop_left' (by rw [List.length_append])]
      exact hafter
  · rintro ⟨p, hocc, hends⟩
    obtain ⟨before, line, hfront, hbefore, hline⟩ := exists_line_start (text.take p)
    refine ⟨line ++ needle, ⟨before, text.drop (p + needle.length), ?_, hbefore, ?_,
      hends⟩, List.suffix_append ..⟩
    · conv_lhs => rw [hocc.split, hfront]
      simp only [List.append_assoc]
    · intro c hc
      rcases List.mem_append.mp hc with hc | hc
      · exact hline c hc
      · exact hneedle c hc

/-! ## The searches -/

section Searches

variable {text needle : List UInt8} {behind : List UInt8}

/-- What a search from `a` on comes to in the end. -/
inductive Searched (text needle : List UInt8) (a : ℕ) : ℕ → Option ℕ → Prop where
  /-- an occurrence at the end of a line -/
  | found {pos p : ℕ} : Visits (Occurs needle text) needle.length a p →
      EndsLine text (p + needle.length) → Searched text needle a pos (some p)
  /-- the place behind the last occurrence, none of them at the end of a line -/
  | missed {pos : ℕ} :
      (pos = a ∨ ∃ q, Visits (Occurs needle text) needle.length a q ∧
        pos = q + needle.length) →
      (∀ i, pos ≤ i → ¬Occurs needle text i) →
      (∀ p, Visits (Occurs needle text) needle.length a p →
        ¬EndsLine text (p + needle.length)) →
      Searched text needle a pos none

theorem Searched.later {a q pos : ℕ} {p : Option ℕ}
    (hq : IsFirst (Occurs needle text) a q)
    (hends : ¬EndsLine text (q + needle.length))
    (h : Searched text needle (q + needle.length) pos p) :
    Searched text needle a pos p := by
  cases h with
  | found hp hend => exact .found (.later hq hp) hend
  | missed hpos hnone hall =>
      refine .missed (.inr ?_) hnone fun p hp => ?_
      · rcases hpos with rfl | ⟨q', hq', rfl⟩
        · exact ⟨q, .here hq, rfl⟩
        · exact ⟨q', .later hq hq', rfl⟩
      · rcases hp.eq_or_later hq with rfl | hp
        · exact hends
        · exact hall p hp

variable (hnul : nul ∉ text) (hne : needle ≠ [])
include hnul

/-- The character behind an occurrence ends a line or does not. -/
theorem load_endsLine {i : ℕ} (hi : i ≤ text.length) :
    ∃ c, load (text ++ nul :: behind) i = .ok c ∧
      ((c = lf ∨ c = cr ∨ c = nul) ↔ EndsLine text i) := by
  have hlt : i < (text ++ nul :: behind).length := by
    rw [List.length_append, List.length_cons]
    omega
  refine ⟨_, load_of_lt hlt, ?_⟩
  unfold EndsLine
  rw [List.head?_drop]
  by_cases hend : i < text.length
  · rw [List.getElem_append_left hend, List.getElem?_eq_getElem hend]
    have hc : text[i] ≠ nul := fun h => hnul (h ▸ List.getElem_mem hend)
    simp only [Option.mem_some_iff, forall_eq', isBreak, Bool.or_eq_true,
      decide_eq_true_eq]
    tauto
  · have heq : i = text.length := by omega
    subst heq
    rw [List.getElem_append_right le_rfl, List.getElem?_eq_none le_rfl]
    simp

include hne

theorem skipPartial_searched : ∀ (fuel : ℕ) {a : ℕ}, a ≤ text.length →
    text.length < a + fuel →
    ∃ pos p, (do
        let p ← strstrFrom needle (text ++ nul :: behind) a
        skipPartial needle (text ++ nul :: behind) fuel a p) = .ok (pos, p) ∧
      Searched text needle a pos p
  | 0, a, ha, hfuel => absurd hfuel (by omega)
  | fuel + 1, a, ha, hfuel => by
      have hpos := List.length_pos_iff.mpr hne
      rcases strstrFrom_text hnul behind ha with ⟨q, hrun, hq⟩ | ⟨hrun, hnone⟩
      · have hq' := hq.holds.le_length hne
        obtain ⟨c, hload, hc⟩ := @load_endsLine _ behind hnul _ hq'
        rw [hrun, C.ok_bind, skipPartial, hload, C.ok_bind]
        split
        case isTrue hend => exact ⟨a, some q, rfl, .found (.here hq) (hc.mp hend)⟩
        case isFalse hend =>
            have hle := hq.le
            obtain ⟨pos, p, hrun', hs⟩ :=
              skipPartial_searched fuel hq' (by omega)
            exact ⟨pos, p, hrun', hs.later hq (mt hc.mpr hend)⟩
      · rw [hrun, C.ok_bind]
        exact ⟨a, none, rfl, .missed (.inl rfl) hnone fun p hp =>
          absurd hp (Visits.not_of_none hnone)⟩

theorem searchFull_searched {a : ℕ} (ha : a ≤ text.length) :
    ∃ pos p, searchFull needle (text ++ nul :: behind) a = .ok (pos, p) ∧
      Searched text needle a pos p :=
  skipPartial_searched hnul hne _ ha (by
    rw [List.length_append, List.length_cons]
    omega)

/-- The searches come by this occurrence. The second one goes as far as the
first one went. -/
def Seen (text needle : List UInt8) (pos p : ℕ) : Prop :=
  Visits (Occurs needle text) needle.length pos p ∨
    Visits (Occurs needle text) needle.length 0 p ∧
      (p + needle.length ≤ pos ∨
        ∃ q, Visits (Occurs needle text) needle.length pos q ∧ p ≤ q)

/-- The list is cut off right behind this occurrence, and the second search
comes by it. -/
def CutBehind (text needle : List UInt8) (pos p : ℕ) : Prop :=
  Visits (Occurs needle text) needle.length 0 p ∧
    (p + needle.length = pos ∨ Visits (Occurs needle text) needle.length pos p) ∧
    ∀ i, p + needle.length ≤ i → ¬Occurs needle text i

/-- The searches come by what looks like the end of a line. -/
def Taken (text needle : List UInt8) (pos : ℕ) : Prop :=
  (∃ p, Seen text needle pos p ∧ EndsLine text (p + needle.length)) ∨
    ∃ p, CutBehind text needle pos p

omit hnul hne in
theorem endsLine_take {c i : ℕ} (hi : i ≤ c) (hc : c ≤ text.length) :
    EndsLine (text.take c) i ↔ i = c ∨ EndsLine text i := by
  unfold EndsLine
  rw [List.drop_take]
  rcases Nat.eq_or_lt_of_le hi with rfl | hlt
  · simp
  · rw [List.head?_take, if_neg (by omega)]
    exact ⟨.inr, fun h => h.resolve_left (by omega)⟩

/-- The search from the beginning, and the list as it was. -/
theorem searchFront_searched {pos : ℕ} (hpos : pos ≤ text.length) :
    ∃ p, searchFront needle (text ++ nul :: behind) pos
        = .ok (p, text ++ nul :: behind) ∧
      ∃ pos', Searched (text.take pos) needle 0 pos' p := by
  have hlt : pos < (text ++ nul :: behind).length := by
    rw [List.length_append, List.length_cons]
    omega
  have hcut : (text ++ nul :: behind).set pos nul
      = text.take pos ++ nul :: (text ++ nul :: behind).drop (pos + 1) := by
    rw [List.set_eq_take_append_cons_drop, if_pos hlt, List.take_append_of_le_length hpos]
  obtain ⟨pos', p, hrun, hs⟩ := @searchFull_searched (text.take pos) needle
    ((text ++ nul :: behind).drop (pos + 1)) (fun h => hnul (List.mem_of_mem_take h))
    hne 0 (Nat.zero_le _)
  refine ⟨p, ?_, pos', hs⟩
  rw [← hcut] at hrun
  have hback : ((text ++ nul :: behind).set pos nul).set pos
      (text ++ nul :: behind)[pos] = text ++ nul :: behind := by
    rw [List.set_set, List.set_getElem_self]
  simp only [searchFront, load_of_lt hlt, C.ok_bind, store, if_pos hlt, hrun,
    List.length_set, hback]
  rfl

omit hnul in
/-- A first search in vain: what can be taken for the end of a line is in front
of where it ended, and the second search comes by it. -/
theorem Searched.taken_iff {a pos : ℕ} (h : Searched text needle a pos none) :
    Taken text needle a ↔ ∃ p, Visits (Occurs needle text) needle.length 0 p ∧
      p + needle.length ≤ pos ∧
      (p + needle.length = pos ∨ EndsLine text (p + needle.length)) := by
  have hlen := List.length_pos_iff.mpr hne
  cases h with | missed hpos hnone hall => ?_
  constructor
  · rintro (⟨p, hp | ⟨hp, hle⟩, hends⟩ | ⟨p, hp, hat, hlast⟩)
    · exact absurd hends (hall p hp)
    · refine ⟨p, hp, ?_, .inr hends⟩
      rcases hpos with rfl | ⟨last, hlastv, rfl⟩
      · rcases hle with hle | ⟨q, hq, -⟩
        · exact hle
        · exact absurd hq.holds (hnone q hq.le)
      · rcases hle with hle | ⟨q, hq, hpq⟩
        · exact hle.trans (hlastv.le.trans (Nat.le_add_right ..))
        · have hq' : q ≤ last := not_lt.mp fun hlt =>
            hnone q (hlastv.apart hq hlt) hq.holds
          omega
    · refine ⟨p, hp, ?_⟩
      have heq : p + needle.length = pos := by
        rcases hpos with rfl | ⟨q, hq, rfl⟩
        · exact hat.resolve_right fun hv => hnone p hv.le hv.holds
        · rcases hat with heq | hv
          · exact absurd hq.holds (hlast q (heq ▸ hq.le))
          · rcases Nat.lt_trichotomy p q with hlt | rfl | hlt
            · exact absurd hq.holds (hlast q (hv.apart hq hlt))
            · rfl
            · exact absurd hv.holds (hnone p (hq.apart hv hlt))
      exact ⟨heq.le, .inl heq⟩
  · rintro ⟨p, hp, hle, heq | hends⟩
    · refine .inr ⟨p, hp, ?_, fun i hi => hnone i (heq ▸ hi)⟩
      rcases hpos with rfl | ⟨q, hq, rfl⟩
      · exact .inl heq
      · exact .inr (Nat.add_right_cancel heq ▸ hq)
    · refine .inl ⟨p, .inr ⟨hp, ?_⟩, hends⟩
      rcases hpos with rfl | ⟨q, hq, rfl⟩
      · exact .inl hle
      · exact .inr ⟨q, hq, Nat.le_of_add_le_add_right hle⟩

omit hnul in
/-- What the second search finds in the list that is cut off. -/
theorem Searched.cut_iff {c pos : ℕ} {p : Option ℕ} (hc : c ≤ text.length)
    (h : Searched (text.take c) needle 0 pos p) :
    (p.isSome = true ↔ ∃ p, Visits (Occurs needle text) needle.length 0 p ∧
      p + needle.length ≤ c ∧
      (p + needle.length = c ∨ EndsLine text (p + needle.length))) ∧
    ∀ q ∈ p, q + needle.length ≤ text.length := by
  have hocc : Occurs needle (text.take c)
      = fun i => Occurs needle text i ∧ i + needle.length ≤ c :=
    funext fun i => propext (occurs_take_iff hne)
  cases h with
  | found hp hends =>
      rename_i p
      rw [hocc, Visits.restrict_iff] at hp
      refine ⟨⟨fun _ => ⟨p, hp.1, hp.2, (endsLine_take hp.2 hc).mp hends⟩,
        fun _ => rfl⟩, ?_⟩
      rintro q ⟨⟩
      exact hp.1.holds.le_length hne
  | missed _ _ hall =>
      refine ⟨⟨nofun, ?_⟩, nofun⟩
      rintro ⟨p, hp, hle, hends⟩
      refine absurd ((endsLine_take hle hc).mpr hends) (hall p ?_)
      rw [hocc, Visits.restrict_iff]
      exact ⟨hp, hle⟩

/-- **Both searches** leave the list as it is. -/
theorem searchBoth_taken {list : Md5sumList}
    (hdata : list.data = text ++ nul :: behind) (hle : list.pos ≤ text.length) :
    ∃ p, searchBoth needle list = .ok (p, list.data) ∧
      (p.isSome = true ↔ Taken text needle list.pos) ∧
      ∀ q ∈ p, q + needle.length ≤ text.length := by
  have hlen := List.length_pos_iff.mpr hne
  obtain ⟨pos, p, hrun, hs⟩ := @searchFull_searched _ _ behind hnul hne _ hle
  rw [searchBoth, hdata, hrun, C.ok_bind]
  cases p with
  | some p =>
      cases hs with | found hp hends => ?_
      refine ⟨some p, if_neg (by simp), ?_, ?_⟩
      · exact ⟨fun _ => .inl ⟨p, .inl hp, hends⟩, fun _ => rfl⟩
      · rintro q ⟨⟩
        exact hp.holds.le_length hne
  | none =>
      by_cases hzero : pos = 0
      · refine ⟨none, if_neg (by simp [hzero]), ⟨nofun, fun htaken => ?_⟩, nofun⟩
        obtain ⟨p, -, hcut, -⟩ := (hs.taken_iff hne).mp htaken
        omega
      · have hin : pos ≤ text.length := by
          cases hs with | missed hpos _ _ => ?_
          rcases hpos with rfl | ⟨q, hq, rfl⟩
          · exact hle
          · exact hq.holds.le_length hne
        obtain ⟨p, hrun', pos', hs'⟩ :=
          @searchFront_searched _ _ behind hnul hne _ hin
        obtain ⟨hsome, hbound⟩ := hs'.cut_iff hne hin
        exact ⟨p, (if_pos ⟨rfl, hzero⟩).trans hrun', hsome.trans (hs.taken_iff hne).symm,
          hbound⟩

end Searches

/-! ## Queries -/

/-- A buffer with a path, `"X:/rest"`. -/
structure QueriedPath where
  drive : UInt8
  rest : List UInt8
  behind : List UInt8
  no_nul : nul ∉ rest

namespace QueriedPath

def buffer (path : QueriedPath) : List UInt8 :=
  path.drive :: colon :: 47 :: (path.rest ++ nul :: path.behind)

/-- `" ."` and the path without its drive letter -/
def needle (path : QueriedPath) : List UInt8 := space :: dot :: 47 :: path.rest

end QueriedPath

/-- The list is loaded with a text, and `md5sum_pos` is inside of it. -/
structure Md5sumList.Holds (list : Md5sumList) (text : List UInt8) : Prop where
  creating : list.creating = false
  no_nul : nul ∉ text
  size : list.size = text.length
  data : ∃ behind, list.data = text ++ nul :: behind
  pos : list.pos ≤ text.length

/-- **A query** leaves the list and its path as they are. -/
theorem isInMd5sum_taken {list : Md5sumList} {text : List UInt8}
    (hlist : list.Holds text) (path : QueriedPath) :
    ∃ found pos, isInMd5sum list path.buffer
        = .ok (found, { list with pos := pos }, path.buffer) ∧
      pos ≤ text.length ∧ (found = true ↔ Taken text path.needle list.pos) := by
  obtain ⟨behind, hdata⟩ := hlist.data
  have hne : path.needle ≠ [] := List.cons_ne_nil _ _
  obtain ⟨p, hrun, hsome, hbound⟩ := searchBoth_taken hlist.no_nul hne hdata hlist.pos
  unfold isInMd5sum
  rw [if_neg (by rw [hlist.creating]; decide)]
  split
  case isTrue hempty =>
      have htext : text = [] := by
        rcases hempty with hsize | hnil
        · exact List.length_eq_zero_iff.mp (hlist.size ▸ hsize)
        · simp [hdata] at hnil
      refine ⟨false, list.pos, rfl, hlist.pos, nofun, fun htaken => ?_⟩
      have hnone (p : ℕ) : ¬Occurs path.needle text p := by
        intro hocc
        have := hocc.le_length hne
        rw [htext, QueriedPath.needle] at this
        simp at this
      rcases htaken with ⟨p, hp, -⟩ | ⟨p, hp, -⟩
      · rcases hp with hp | ⟨hp, -⟩
        · exact absurd hp.holds (hnone p)
        · exact absurd hp.holds (hnone p)
      · exact absurd hp.holds (hnone p)
  case isFalse =>
      have hneedle : nul ∉ path.needle := by
        simp [QueriedPath.needle, path.no_nul]
      have hxyz : cstrAt (space :: dot :: 47 :: (path.rest ++ nul :: path.behind)) 0
          = .ok path.needle := @cstrAt_append [] path.needle path.behind hneedle
      refine ⟨p.isSome, (p.map (· + path.needle.length)).getD list.pos, ?_, ?_, hsome⟩
      · simp only [QueriedPath.buffer, load, store, List.length_cons, Nat.zero_lt_succ,
          Nat.succ_lt_succ_iff, List.getElem?_cons_zero, List.getElem?_cons_succ,
          List.set_cons_zero, List.set_cons_succ, if_true, C.ok_bind, and_self,
          assertThat, decide_true, hxyz, hrun]
        rfl
      · cases p with
        | none => exact hlist.pos
        | some q => exact hbound q rfl

/-! ## Where it answers right -/

/-- A path as they mostly are: on one line, and unable to overlap itself. -/
structure Plain (needle : List UInt8) : Prop where
  no_break : ∀ c ∈ needle, isBreak c = false
  apart : ∀ d, 0 < d → d < needle.length → ¬needle.drop d <+: needle

theorem Plain.occurs_apart {text needle : List UInt8} (hplain : Plain needle) {p q : ℕ}
    (hp : Occurs needle text p) (hq : Occurs needle text q) (hlt : p < q) :
    p + needle.length ≤ q := by
  by_contra hle
  refine hplain.apart (q - p) (by omega) (by omega) ?_
  -- both begin at `q`
  have hrest : needle.drop (q - p) <+: text.drop q := by
    have hdrop := hp.drop (q - p)
    rwa [List.drop_drop, Nat.add_sub_cancel' hlt.le] at hdrop
  exact List.prefix_of_prefix_length_le hrest hq (by rw [List.length_drop]; omega)

/-- Where a plain path is answered right: one that is listed occurs behind
`md5sum_pos`, or a line ends with it in front of that; one that is not does not
occur behind it, nor right in front of it. -/
structure PlainRight (text needle : List UInt8) (pos : ℕ) : Prop where
  listed : Listed text needle → (∃ i, pos ≤ i ∧ Occurs needle text i) ∨
    ∃ p, Occurs needle text p ∧ EndsLine text (p + needle.length) ∧
      p + needle.length ≤ pos
  unlisted : ¬Listed text needle →
    (∀ i, pos ≤ i → ¬Occurs needle text i) ∧ ¬needle <:+ text.take pos

/-- Where another path is: one that is listed is seen at the end of a line, or in
front of the cut; one that is not is not cut behind, and one with a break in it
is not seen at the end of a line. -/
structure SeenRight (text needle : List UInt8) (pos : ℕ) : Prop where
  listed : Listed text needle →
    (∃ p, Seen text needle pos p ∧ EndsLine text (p + needle.length)) ∨
      ∃ p, CutBehind text needle pos p
  uncut : ¬Listed text needle → ∀ p, ¬CutBehind text needle pos p
  unbroken : (∃ c ∈ needle, isBreak c = true) →
    ∀ p, Seen text needle pos p → ¬EndsLine text (p + needle.length)

/-- Where the answer is right. -/
def Unmistaken (text needle : List UInt8) (pos : ℕ) : Prop :=
  (Plain needle → PlainRight text needle pos) ∧
    (¬Plain needle → SeenRight text needle pos)

theorem Seen.occurs {text needle : List UInt8} {pos p : ℕ}
    (h : Seen text needle pos p) : Occurs needle text p := by
  rcases h with hp | ⟨hp, -⟩
  · exact hp.holds
  · exact hp.holds

theorem Listed.no_break {text needle : List UInt8} (h : Listed text needle) :
    ∀ c ∈ needle, isBreak c = false := by
  obtain ⟨line, ⟨-, -, -, -, hline, -⟩, hsuffix⟩ := h
  exact fun c hc => hline c (hsuffix.mem hc)

theorem taken_iff_seenRight {text needle : List UInt8} {pos : ℕ} :
    (Taken text needle pos ↔ Listed text needle) ↔ SeenRight text needle pos := by
  constructor
  · intro h
    refine ⟨h.mpr, fun hnot p hcut => hnot (h.mp (.inr ⟨p, hcut⟩)), ?_⟩
    rintro ⟨c, hc, hbreak⟩ p hseen hends
    have hline := (h.mp (.inl ⟨p, hseen, hends⟩)).no_break c hc
    rw [hbreak] at hline
    cases hline
  · intro h
    refine ⟨fun htaken => by_contra fun hnot => ?_, h.listed⟩
    rcases htaken with ⟨p, hseen, hends⟩ | ⟨p, hcut⟩
    · by_cases hbreak : ∃ c ∈ needle, isBreak c = true
      · exact h.unbroken hbreak p hseen hends
      · refine hnot ((listed_iff fun c hc => ?_).mpr ⟨p, hseen.occurs, hends⟩)
        exact (Bool.not_eq_true _).mp fun hc' => hbreak ⟨c, hc, hc'⟩
    · exact h.uncut hnot p hcut

section Plain

variable {text needle : List UInt8} {pos : ℕ} (hplain : Plain needle) (hne : needle ≠ [])

include hplain hne

theorem Plain.visits {a p : ℕ} (hp : Occurs needle text p) (hle : a ≤ p) :
    Visits (Occurs needle text) needle.length a p :=
  .of_apart (fun _ _ => hplain.occurs_apart) (List.length_pos_iff.mpr hne) hp hle

/-- The last occurrence behind `pos`, or the one right in front of it, is cut
behind. -/
theorem Plain.exists_cutBehind (hpos : pos ≤ text.length)
    (h : (∃ i, pos ≤ i ∧ Occurs needle text i) ∨ needle <:+ text.take pos) :
    ∃ p, CutBehind text needle pos p := by
  by_cases hsome : ∃ i, pos ≤ i ∧ Occurs needle text i
  · obtain ⟨i, hi, hocc⟩ := hsome
    obtain ⟨m, him, hm, hlast⟩ := exists_last (N := text.length)
      (fun i hi => by have := hi.le_length hne; omega) hocc
    exact ⟨m, hplain.visits hne hm (Nat.zero_le m),
      .inr (hplain.visits hne hm (hi.trans him)), fun i hi =>
        hlast i (by have := List.length_pos_iff.mpr hne; omega)⟩
  · obtain ⟨front, hfront⟩ := h.resolve_left hsome
    have hlength : front.length + needle.length = pos := by
      rw [← List.length_append, hfront, List.length_take_of_le hpos]
    have hocc : Occurs needle text front.length := by
      rw [Occurs, ← List.take_append_drop pos text, ← hfront, List.append_assoc,
        List.drop_left]
      exact List.prefix_append ..
    exact ⟨front.length, hplain.visits hne hocc (Nat.zero_le _), .inl hlength,
      fun i hi hP => hsome ⟨i, hlength ▸ hi, hP⟩⟩

/-- A path that is listed and taken is where `PlainRight` says. -/
theorem Plain.listed_of_taken (hlist : Listed text needle) (htaken : Taken text needle pos) :
    (∃ i, pos ≤ i ∧ Occurs needle text i) ∨
      ∃ p, Occurs needle text p ∧ EndsLine text (p + needle.length) ∧
        p + needle.length ≤ pos := by
  have hlen := List.length_pos_iff.mpr hne
  rcases htaken with ⟨p, hp | ⟨hp, hle | ⟨q, hq, -⟩⟩, hends⟩ | ⟨p, hp, heq | hv, hlast⟩
  · exact .inl ⟨p, hp.le, hp.holds⟩
  · exact .inr ⟨p, hp.holds, hends, hle⟩
  · exact .inl ⟨q, hq.le, hq.holds⟩
  · -- cut off behind `p`, so the listed one is in front of it
    obtain ⟨p', hp', hends⟩ := (listed_iff hplain.no_break).mp hlist
    by_cases hle : p' + needle.length ≤ pos
    · exact .inr ⟨p', hp', hends, hle⟩
    · refine absurd hp' (hlast p' ?_)
      rcases Nat.lt_trichotomy p p' with hlt | rfl | hlt
      · exact hplain.occurs_apart hp.holds hp' hlt
      · omega
      · have := hplain.occurs_apart hp' hp.holds hlt
        omega
  · exact .inl ⟨p, hv.le, hv.holds⟩

theorem PlainRight.not_taken (h : PlainRight text needle pos) (hlist : ¬Listed text needle) :
    ¬Taken text needle pos := by
  intro htaken
  obtain ⟨hnone, hsuffix⟩ := h.unlisted hlist
  rcases htaken with ⟨p, hseen, hends⟩ | ⟨p, hp, heq | hv, -⟩
  · exact hlist ((listed_iff hplain.no_break).mpr ⟨p, hseen.occurs, hends⟩)
  · refine hsuffix ⟨text.take p, ?_⟩
    conv_rhs => rw [hp.holds.split, ← heq, ← List.append_assoc]
    rw [List.take_left' (by rw [List.length_append, List.length_take_of_le
      (by have := hp.holds.le_length hne; omega)])]
  · exact hnone p hv.le hv.holds

theorem PlainRight.taken (h : PlainRight text needle pos) (hlist : Listed text needle) :
    Taken text needle pos := by
  have hlen := List.length_pos_iff.mpr hne
  obtain ⟨p, hp, hends⟩ := (listed_iff hplain.no_break).mp hlist
  rcases h.listed hlist with ⟨i, hi, hocc⟩ | ⟨p', hp', hends', hle⟩
  · refine .inl ⟨p, ?_, hends⟩
    rcases Nat.lt_or_ge p pos with hlt | hge
    · exact .inr ⟨hplain.visits hne hp (Nat.zero_le p),
        .inr ⟨i, hplain.visits hne hocc hi, by omega⟩⟩
    · exact .inl (hplain.visits hne hp hge)
  · exact .inl ⟨p', .inr ⟨hplain.visits hne hp' (Nat.zero_le p'), .inl hle⟩, hends'⟩

/-- **Plain paths.** One that is listed is found unless its line is the last
place where it occurs and `md5sum_pos` is inside of it; one that is not is taken
for listed where it occurs behind `md5sum_pos`, or right in front of it. -/
theorem taken_iff_plainRight (hpos : pos ≤ text.length) :
    (Taken text needle pos ↔ Listed text needle) ↔ PlainRight text needle pos := by
  constructor
  · intro h
    refine ⟨fun hlist => hplain.listed_of_taken hne hlist (h.mpr hlist), fun hlist => ?_⟩
    have hnot : ¬Taken text needle pos := mt h.mp hlist
    refine ⟨fun i hi hocc => hnot (.inr ?_), fun hsuffix => hnot (.inr ?_)⟩
    · exact hplain.exists_cutBehind hne hpos (.inl ⟨i, hi, hocc⟩)
    · exact hplain.exists_cutBehind hne hpos (.inr hsuffix)
  · intro h
    refine ⟨fun htaken => by_contra fun hlist => ?_, h.taken hplain hne⟩
    exact h.not_taken hplain hne hlist htaken

end Plain

theorem taken_iff_unmistaken {text needle : List UInt8} (hne : needle ≠ []) {pos : ℕ}
    (hpos : pos ≤ text.length) :
    (Taken text needle pos ↔ Listed text needle) ↔ Unmistaken text needle pos := by
  by_cases hplain : Plain needle
  · rw [taken_iff_plainRight hplain hne hpos]
    exact ⟨fun h => ⟨fun _ => h, fun hno => absurd hplain hno⟩, fun h => h.1 hplain⟩
  · rw [taken_iff_seenRight]
    exact ⟨fun h => ⟨fun hyes => absurd hyes hplain, fun _ => h⟩, fun h => h.2 hplain⟩

theorem isInMd5sumAll_right {text behind : List UInt8} : ∀ (paths : List QueriedPath)
    {list : Md5sumList}, list.Holds text → list.data = text ++ nul :: behind →
    ∃ log last, isInMd5sumAll list (paths.map (·.buffer)) = .ok (log, last) ∧
      last.data = text ++ nul :: behind ∧
      List.Forall₂ (fun path entry => entry.2.2 = path.buffer ∧
        ((entry.2.1 = true ↔ Listed text path.needle) ↔
          Unmistaken text path.needle entry.1)) paths log
  | [], list, _, hdata => ⟨[], list, rfl, hdata, .nil⟩
  | path :: paths, list, hlist, hdata => by
      obtain ⟨found, pos, hrun, hpos, hfound⟩ := isInMd5sum_taken hlist path
      have hlist' : Md5sumList.Holds { list with pos := pos } text :=
        ⟨hlist.creating, hlist.no_nul, hlist.size, hlist.data, hpos⟩
      obtain ⟨log, last, hrest, hlast, hall⟩ := isInMd5sumAll_right paths hlist' hdata
      refine ⟨(list.pos, found, path.buffer) :: log, last, ?_, hlast, .cons ⟨rfl, ?_⟩ hall⟩
      · rw [List.map_cons, isInMd5sumAll, hrun, C.ok_bind]
        simp only [hrest, C.ok_bind]
        rfl
      · rw [hfound]
        exact taken_iff_unmistaken (List.cons_ne_nil _ _) hlist.pos

/-- **A sequence of queries.** Each one leaves the text and its path as they
were, and answers whether a line ends with the path if and only if the places
where the path occurs, on either side of `md5sum_pos`, do not mislead it. -/
theorem isInMd5sum_right_iff {text : List UInt8} (hnul : nul ∉ text)
    (behind : List UInt8) (paths : List QueriedPath) :
    ∃ log last, isInMd5sumAll ⟨false, text.length, text ++ nul :: behind, 0⟩
        (paths.map (·.buffer)) = .ok (log, last) ∧
      last.data = text ++ nul :: behind ∧
      List.Forall₂ (fun path entry => entry.2.2 = path.buffer ∧
        ((entry.2.1 = true ↔ Listed text path.needle) ↔
          Unmistaken text path.needle entry.1)) paths log :=
  isInMd5sumAll_right paths ⟨rfl, hnul, rfl, ⟨behind, rfl⟩, Nat.zero_le _⟩ rfl

/-- A list with the one line of `./abcdef`. -/
def abcdefText : List UInt8 := text "d41d8cd98f00b204e9800998ecf8427e  ./abcdef\n"

/-- `"X:/abc"` -/
def abcPath : QueriedPath := ⟨88, text "abc", [], by decide⟩

theorem isInMd5sum_right_abc : ∃ log last,
    isInMd5sumAll ⟨false, abcdefText.length, abcdefText ++ [nul], 0⟩ [abcPath.buffer]
      = .ok (log, last) ∧
    last.data = abcdefText ++ [nul] ∧
    List.Forall₂ (fun path entry => entry.2.2 = path.buffer ∧
      ((entry.2.1 = true ↔ Listed abcdefText path.needle) ↔
        Unmistaken abcdefText path.needle entry.1)) [abcPath] log :=
  isInMd5sum_right_iff (by decide) [] [abcPath]

/-- `./abc` is no line of the list, and is taken for one. -/
theorem isInMd5sum_longer_path :
    isInMd5sumAll ⟨false, abcdefText.length, abcdefText ++ [nul], 0⟩ [abcPath.buffer]
      = .ok ([(0, true, abcPath.buffer)],
        ⟨false, abcdefText.length, abcdefText ++ [nul], 39⟩) ∧
    ¬Listed abcdefText abcPath.needle := by
  refine ⟨by decide, ?_⟩
  rw [listed_iff (by decide +kernel)]
  rintro ⟨p, hocc, hends⟩
  have hbound := hocc.le_length (by decide)
  have hall : ∀ p < 50, abcPath.needle.isPrefixOf (abcdefText.drop p) = true →
      ((abcdefText.drop (p + abcPath.needle.length)).head?.all isBreak) = false := by
    decide
  have hlength : abcdefText.length < 50 := by decide
  have hfalse := hall p (by omega) (List.isPrefixOf_iff_prefix.mpr hocc)
  cases hhead : (abcdefText.drop (p + abcPath.needle.length)).head? with
  | none => simp [hhead] at hfalse
  | some c => simp [hhead, hends c hhead] at hfalse

end Nawam
