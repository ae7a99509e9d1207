import Nawam.Base.Calendar
import Nawam.Security.CommitTimestamp
import Nawam.Security.JsonGrammar

/-!
# What a commit document is

`CommitDocument` says in terms of the parsed text which documents
`NawamCommitTimestamp` is meant to accept, and the theorems show that it
accepts these and no others. The search for a member only ever walks text
that the recogniser has accepted before, so it is enough to follow it along
a derivation: `Reads k p` says that `k`, started on the text of a value,
computes what the predicate `p` says of the value.
-/

namespace Nawam

open Ascii

/-! ## Documents -/

/-- Exactly one member has the name, and `v` is its value. Names are compared
as they are written. -/
def UniqueMember (ms : List (List UInt8 × Json)) (name : List UInt8)
    (v : Json) : Prop :=
  ms.filter (fun m => m.1 = name) = [(name, v)]

/-- 40 hexadecimal digits. -/
def IsSha (sha : List UInt8) : Prop :=
  sha.length = 40 ∧ ∀ c ∈ sha, (digitValue c).isSome = true

/-- The text is an array of one commit with this hash and this date. -/
def CommitDocument (text sha date : List UInt8) : Prop :=
  ∃ members commit committer,
    JsonText (.array [.object members]) text ∧
    (Json.array [.object members]).depth ≤ 32 ∧
    UniqueMember members (Ascii.text "sha") (.string sha) ∧ IsSha sha ∧
    UniqueMember members (Ascii.text "commit") (.object commit) ∧
    UniqueMember commit (Ascii.text "committer") (.object committer) ∧
    UniqueMember committer (Ascii.text "date") (.string date)

/-! ## Finding a member -/

/-- The name and the colon of a member, read along the grammar. -/
theorem memberLabel_eq {k w₁ w₂ x : List UInt8} {v : Json} (hk : Chars k)
    (hw₁ : Ws w₁) (hw₂ : Ws w₂) (hv : Value v x) (t : List UInt8) :
    memberLabel (quote :: (k ++ quote :: (w₁ ++ colon :: (w₂ ++ (x ++ t)))))
      = .ok (some (w₁ ++ colon :: (w₂ ++ (x ++ t)), x ++ t)) := by
  have hcolon : nawamJsonSpace (w₁ ++ colon :: (w₂ ++ (x ++ t)))
      = colon :: (w₂ ++ (x ++ t)) := by
    rw [nawamJsonSpace_append hw₁, nawamJsonSpace_cons (by decide)]
  have hvalue := nawamJsonSpace_value hw₂ hv t
  unfold memberLabel
  rw [nawamJsonString_complete hk]
  simp only [C.ok_bind, hcolon, reduceCtorEq, if_false, peek_cons,
    List.tail_cons, hvalue, ne_eq, not_true_eq_false, C.pure_eq]

theorem sameName_eq (name k s : List UInt8) :
    sameName name (quote :: (k ++ quote :: s)) s = .ok (decide (k = name)) := by
  have hlen : (quote :: (k ++ quote :: s)).length - s.length = k.length + 2 := by
    simp only [List.length_cons, List.length_append]
    omega
  unfold sameName
  rw [hlen]
  by_cases hk : k.length = name.length
  · rw [if_pos (by omega), loadN_of_le (by simp; omega)]
    simp [← hk]
  · have hne : k ≠ name := fun h => hk (congrArg List.length h)
    rw [if_neg (by omega)]
    simp [hne]

/-- The walk over a value in a container: it leaves the white space and what
ends or continues the container. -/
theorem nawamJsonValue_delimited {x w : List UInt8} {v : Json} {c : UInt8}
    (hv : Value v x) (hw : Ws w) (hdepth : v.depth ≤ 32)
    (hc : c = rbrace ∨ c = rbracket ∨ c = comma) (r : List UInt8) :
    nawamJsonValue (2 * (x ++ (w ++ c :: r)).length + 1) 0
        (x ++ (w ++ c :: r)) = .ok (some (w ++ c :: r)) ∧
      nawamJsonSpace (w ++ c :: r) = c :: r := by
  have hfollow : (isDigit c = false ∧ c ≠ dot ∧ c ≠ 101 ∧ c ≠ 69) ∧
      isJsonSpace c = false := by
    rcases hc with rfl | rfl | rfl
    · decide
    · decide
    · decide
  refine ⟨?_, by rw [nawamJsonSpace_append hw, nawamJsonSpace_cons hfollow.2]⟩
  have hval := value_complete hv [] (w ++ c :: r) _ 0 Ws.nil
    (follow_ws hw r hfollow.1) (by omega)
    (le_refl (2 * ([] ++ (x ++ (w ++ c :: r))).length + 1))
  rwa [List.nil_append] at hval

/-- One iteration of the search, over one member. -/
theorem memberLoop_member (name : List UInt8) (fuel : ℕ)
    {w k w₁ w₂ x w' : List UInt8} {v : Json} {c : UInt8} (hw : Ws w)
    (hk : Chars k) (hw₁ : Ws w₁) (hw₂ : Ws w₂) (hv : Value v x) (hw' : Ws w')
    (hdepth : v.depth ≤ 32) (hc : c = rbrace ∨ c = comma) (r : List UInt8)
    (found : Option (List UInt8)) :
    memberLoop name (fuel + 1) (w ++ (quote :: (k ++ quote :: (w₁ ++ colon ::
        (w₂ ++ (x ++ (w' ++ c :: r))))))) found =
      if k = name ∧ found ≠ none then .ok none
      else if c = rbrace then
        .ok (if k = name then some (x ++ (w' ++ c :: r)) else found)
      else memberLoop name fuel r
        (if k = name then some (x ++ (w' ++ c :: r)) else found) := by
  obtain ⟨hval, hrest⟩ := nawamJsonValue_delimited hv hw' hdepth
    (hc.imp_right Or.inr) r
  rw [memberLoop]
  simp only [nawamJsonSpace_quote hw, reduceCtorEq, if_false, peek_cons,
    C.ok_bind, memberLabel_eq hk hw₁ hw₂ hv, sameName_eq, decide_eq_true_eq]
  rw [if_neg (by decide)]
  by_cases htwice : k = name ∧ found ≠ none
  · rw [if_pos htwice, if_pos htwice]
    rfl
  · rw [if_neg htwice, if_neg htwice]
    simp only [hval, C.ok_bind, hrest, reduceCtorEq, if_false, peek_cons,
      List.tail_cons]
    rcases hc with rfl | rfl
    · rfl
    · rfl

/-- What the search returns, given the members `hits` with the name and what
was found before. -/
def Located : List (List UInt8 × Json) → Option (List UInt8) →
    Option (List UInt8) → Prop
  | [], found, r => r = found
  | [(_, u)], none, r => ∃ y t, Value u y ∧ r = some (y ++ t)
  | _, _, r => r = none

theorem located_twice (m : List UInt8 × Json) (hits : List (List UInt8 × Json))
    (f : List UInt8) : Located (m :: hits) (some f) none := by
  cases hits with
  | nil => exact rfl
  | cons m' hits => exact rfl

/-- The first hit, and then the search behind it. -/
theorem located_cons {k x : List UInt8} {v : Json} {t : List UInt8}
    {hits : List (List UInt8 × Json)} {r : Option (List UInt8)}
    (hv : Value v x) (h : Located hits (some (x ++ t)) r) :
    Located ((k, v) :: hits) none r := by
  cases hits with
  | nil => exact ⟨x, t, hv, h⟩
  | cons m hits =>
      cases hits with
      | nil => exact h
      | cons m' hits => exact h

theorem memberLoop_members (name t : List UInt8) (fuel : ℕ) :
    ∀ {ms : List (List UInt8 × Json)} {x : List UInt8}, Members ms x →
      depthMembers ms ≤ 32 → ∀ found : Option (List UInt8),
        ∃ r, memberLoop name (fuel + ms.length) (x ++ rbrace :: t) found
            = .ok r ∧ Located (ms.filter fun m => m.1 = name) found r
  | _, _, @Members.last w w₁ w₂ w' k x v hw hk hw₁ hw₂ hv hw', hdepth,
      found => by
      simp only [depthMembers] at hdepth
      have hstep := memberLoop_member name fuel hw hk hw₁ hw₂ hv hw'
        (by omega) (Or.inl rfl) t found
      simp only [List.append_assoc, List.cons_append]
      rw [List.length_singleton, hstep, if_pos rfl]
      by_cases hname : k = name
      · have hhits : [(k, v)].filter (fun m => m.1 = name) = [(k, v)] := by
          simp [hname]
        rw [hhits]
        cases found with
        | none =>
            exact ⟨some (x ++ (w' ++ rbrace :: t)), by simp [hname],
              located_cons hv rfl⟩
        | some f => exact ⟨none, by simp [hname], located_twice _ _ f⟩
      · have hhits : [(k, v)].filter (fun m => m.1 = name) = [] := by
          simp [hname]
        rw [hhits]
        exact ⟨found, by simp [hname], rfl⟩
  | _, _, @Members.cons w w₁ w₂ w' k x r v ms hw hk hw₁ hw₂ hv hw' hms, hdepth,
      found => by
      simp only [depthMembers] at hdepth
      have hstep := memberLoop_member name (fuel + ms.length) hw hk hw₁ hw₂ hv
        hw' (by omega) (Or.inr rfl) (r ++ rbrace :: t) found
      have ih := memberLoop_members name t fuel hms (by omega)
      simp only [List.append_assoc, List.cons_append]
      rw [List.length_cons, ← Nat.add_assoc, hstep,
        if_neg (show comma ≠ rbrace by decide)]
      by_cases hname : k = name
      · have hhits : ((k, v) :: ms).filter (fun m => m.1 = name)
            = (k, v) :: ms.filter (fun m => m.1 = name) := by
          simp [hname]
        rw [hhits]
        cases found with
        | none =>
            obtain ⟨o, hrun, hloc⟩ := ih (some (x ++ (w' ++ comma ::
              (r ++ rbrace :: t))))
            exact ⟨o, by simpa [hname] using hrun, located_cons hv hloc⟩
        | some f => exact ⟨none, by simp [hname], located_twice _ _ f⟩
      · have hhits : ((k, v) :: ms).filter (fun m => m.1 = name)
            = ms.filter (fun m => m.1 = name) := by
          simp [hname]
        rw [hhits]
        obtain ⟨o, hrun, hloc⟩ := ih found
        exact ⟨o, by simpa [hname] using hrun, hloc⟩

theorem members_length_le : ∀ {ms : List (List UInt8 × Json)} {x : List UInt8},
    Members ms x → ms.length ≤ x.length
  | _, _, .last _ _ _ _ _ _ => by
      simp only [List.length_append, List.length_cons, List.length_nil]
      omega
  | _, _, .cons _ _ _ _ _ _ hms => by
      have ih := members_length_le hms
      simp only [List.length_append, List.length_cons]
      omega

theorem nawamJsonMember_object (name t : List UInt8)
    {ms : List (List UInt8 × Json)} {x : List UInt8}
    (hv : Value (.object ms) x) (hdepth : depthMembers ms ≤ 32) :
    ∃ r, nawamJsonMember (x ++ t) name = .ok r ∧
      Located (ms.filter fun m => m.1 = name) none r := by
  unfold nawamJsonMember
  cases hv with
  | @emptyObject w hw =>
      have hspace : nawamJsonSpace (w ++ rbrace :: t) = rbrace :: t := by
        rw [nawamJsonSpace_append hw, nawamJsonSpace_cons (by decide)]
      refine ⟨none, ?_, rfl⟩
      simp only [List.cons_append, List.append_assoc, List.nil_append,
        nawamJsonSpace_cons (show isJsonSpace lbrace = false by decide),
        reduceCtorEq, if_false, peek_cons, C.ok_bind, List.tail_cons,
        List.length_cons, memberLoop, hspace]
      rfl
  | @object _ s hms =>
      have hlen := members_length_le hms
      obtain ⟨fuel, hfuel⟩ : ∃ fuel,
          (lbrace :: (s ++ rbrace :: t)).length + 1 = fuel + ms.length := by
        refine ⟨(lbrace :: (s ++ rbrace :: t)).length + 1 - ms.length, ?_⟩
        simp only [List.length_cons, List.length_append]
        omega
      obtain ⟨r, hrun, hloc⟩ := memberLoop_members name t fuel hms hdepth none
      refine ⟨r, ?_, hloc⟩
      rw [← hfuel] at hrun
      simp only [List.cons_append, List.append_assoc, List.nil_append,
        nawamJsonSpace_cons (show isJsonSpace lbrace = false by decide),
        reduceCtorEq, if_false, peek_cons, C.ok_bind, List.tail_cons]
      exact hrun

theorem nawamJsonMember_other (name t : List UInt8) {v : Json} {x : List UInt8}
    (hv : Value v x) (hno : ∀ ms, v ≠ .object ms) :
    nawamJsonMember (x ++ t) name = .ok none := by
  obtain ⟨c, r, rfl, hc⟩ := value_head hv
  have hbrace : c ≠ lbrace := by
    rintro rfl
    cases hv with
    | number hn =>
        obtain ⟨c, r', heq, hc⟩ := number_head hn
        rw [← (List.cons.inj heq).1] at hc
        exact absurd hc (by decide)
    | emptyObject hw => exact hno _ rfl
    | object hms => exact hno _ rfl
  have hspace := nawamJsonSpace_cons (isValueHead_facts c hc).1 (r ++ t)
  rw [List.cons_append]
  unfold nawamJsonMember
  simp only [hspace, reduceCtorEq, if_false, peek_cons, C.ok_bind, ne_eq, hbrace,
    not_false_eq_true, if_true, C.pure_eq]

/-! ## Reading along the document -/

/-- `k`, started on the text of a value, returns `a` exactly if `p` holds of
the value and `a`. -/
def Reads {α : Type} (k : List UInt8 → C (Option α)) (p : Json → α → Prop) :
    Prop :=
  ∀ ⦃v : Json⦄ ⦃x : List UInt8⦄ (t : List UInt8), Value v x → v.depth ≤ 32 →
    ∃ r, k (x ++ t) = .ok r ∧ ∀ a, r = some a ↔ p v a

theorem depth_of_uniqueMember {ms : List (List UInt8 × Json)}
    {name : List UInt8} {u : Json} (h : UniqueMember ms name u) :
    u.depth + 1 ≤ depthMembers ms := by
  have hmem : (name, u) ∈ ms := by
    have : (name, u) ∈ ms.filter (fun m => m.1 = name) := by
      rw [h]
      exact List.mem_singleton_self _
    exact (List.mem_filter.mp this).1
  clear h
  induction ms with
  | nil => simp at hmem
  | cons m ms ih =>
      obtain ⟨k, v⟩ := m
      simp only [depthMembers]
      rcases List.mem_cons.mp hmem with heq | hmem'
      · rw [← (Prod.mk.inj heq).2]
        exact le_max_left _ _
      · exact (ih hmem').trans (le_max_right _ _)

theorem Reads.withMember {α : Type} {k : List UInt8 → C (Option α)}
    {p : Json → α → Prop} (hk : Reads k p) (name : List UInt8) :
    Reads (fun s => withMember s name k)
      (fun v a => ∃ ms u, v = .object ms ∧ UniqueMember ms name u ∧ p u a) := by
  intro v x t hv hdepth
  show ∃ r, Nawam.withMember (x ++ t) name k = .ok r ∧ _
  unfold Nawam.withMember
  by_cases hobj : ∃ ms, v = .object ms
  · obtain ⟨ms, rfl⟩ := hobj
    simp only [Json.depth] at hdepth
    obtain ⟨r, hrun, hloc⟩ := nawamJsonMember_object name t hv hdepth
    -- the members with the name decide
    have hnone : (∀ u, ms.filter (fun m => m.1 = name) ≠ [(name, u)]) →
        r = none := by
      intro hno
      match hhits : ms.filter (fun m => m.1 = name) with
      | [] =>
          rw [hhits] at hloc
          exact hloc
      | [(n, u)] =>
          have hn : n = name := by
            have : (n, u) ∈ ms.filter (fun m => m.1 = name) := by
              rw [hhits]
              exact List.mem_singleton_self _
            simpa using (List.mem_filter.mp this).2
          exact absurd (hn ▸ hhits) (hno u)
      | m :: m' :: hits =>
          rw [hhits] at hloc
          exact hloc
    by_cases hu : ∃ u, UniqueMember ms name u
    · obtain ⟨u, hu⟩ := hu
      have hloc' := hloc
      rw [hu] at hloc'
      obtain ⟨y, t', hy, rfl⟩ := hloc'
      have hd := depth_of_uniqueMember hu
      obtain ⟨r, hrun', hspec⟩ := hk t' hy (by omega)
      refine ⟨r, by rw [hrun]; exact hrun', ?_⟩
      intro a
      rw [hspec]
      constructor
      · intro hp
        exact ⟨ms, u, rfl, hu, hp⟩
      · rintro ⟨ms', u', heq, hu', hp⟩
        rw [← Json.object.inj heq] at hu'
        have huu : u = u' := by
          have := hu.symm.trans hu'
          simpa using this
        exact huu ▸ hp
    · rw [hnone fun u h => hu ⟨u, h⟩] at hrun
      refine ⟨none, by rw [hrun]; rfl, ?_⟩
      intro a
      simp only [reduceCtorEq, false_iff]
      rintro ⟨ms', u', heq, hu', -⟩
      rw [← Json.object.inj heq] at hu'
      exact hu ⟨u', hu'⟩
  · rw [nawamJsonMember_other name t hv fun ms h => hobj ⟨ms, h⟩]
    refine ⟨none, rfl, ?_⟩
    intro a
    simp only [reduceCtorEq, false_iff]
    rintro ⟨ms, u, heq, -⟩
    exact hobj ⟨ms, heq⟩

/-- A string ends at its closing quote, whatever stands behind it. -/
theorem chars_unique {a b s t : List UInt8} (ha : Chars a) (hb : Chars b)
    (h : a ++ quote :: s = b ++ quote :: t) : a = b := by
  have hrun := nawamJsonString_complete ha s
  rw [h, nawamJsonString_complete hb t] at hrun
  have hst : t = s := Option.some.inj (Except.ok.inj hrun)
  subst hst
  exact List.append_cancel_right h

theorem chars_of_plain : ∀ {cs : List UInt8},
    (∀ c ∈ cs, 32 ≤ c ∧ c ≠ quote ∧ c ≠ backslash) → Chars cs
  | [], _ => .nil
  | c :: cs, h => by
      obtain ⟨h32, hq, hb⟩ := h c List.mem_cons_self
      exact .plain h32 hq hb
        (chars_of_plain fun d hd => h d (List.mem_cons_of_mem c hd))

/-- A value whose text starts with a quote, plain characters and a quote is
that string. -/
theorem value_eq_string {v : Json} {x t cs r : List UInt8} (hv : Value v x)
    (hcs : Chars cs) (h : x ++ t = quote :: (cs ++ quote :: r)) :
    v = .string cs := by
  obtain ⟨c, r', rfl, -⟩ := value_head hv
  have hc : c = quote := (List.cons.inj h).1
  subst hc
  cases hv with
  | number hn =>
      obtain ⟨c, r'', heq, hc⟩ := number_head hn
      rw [← (List.cons.inj heq).1] at hc
      exact absurd hc (by decide)
  | string hcs' =>
      rw [List.cons_append, List.append_assoc] at h
      rw [chars_unique hcs' hcs (List.cons.inj h).2]

/-! ## The hash -/

theorem quotedField_spec (n : ℕ) (s : List UInt8) :
    ∃ r, quotedField n s = .ok r ∧ ∀ a, r = some a ↔
      a.length = n ∧ ∃ rest, s = quote :: (a ++ quote :: rest) := by
  unfold quotedField
  by_cases hlen : s.length < n + 2
  · refine ⟨none, by rw [if_pos hlen]; rfl, ?_⟩
    intro a
    simp only [reduceCtorEq, false_iff]
    rintro ⟨hn, rest, rfl⟩
    simp only [List.length_cons, List.length_append] at hlen
    omega
  · obtain ⟨c, s, rfl⟩ : ∃ c s', s = c :: s' :=
      List.exists_cons_of_ne_nil (by rintro rfl; simp at hlen)
    have hlen' : n < s.length := by
      simp only [List.length_cons] at hlen
      omega
    have hsplit : s = s.take n ++ s[n] :: s.drop (n + 1) := by
      rw [← List.drop_eq_getElem_cons hlen', List.take_append_drop]
    have htake : (s.take n).length = n := by
      rw [List.length_take]
      omega
    rw [if_neg hlen, load_of_lt (by simp), load_of_lt (by simpa using hlen'),
      loadN_of_le (by simp; omega)]
    simp only [C.ok_bind, List.getElem_cons_zero, List.getElem_cons_succ,
      List.drop_succ_cons, List.drop_zero]
    by_cases hq : c ≠ quote ∨ s[n] ≠ quote
    · refine ⟨none, by rw [if_pos hq]; rfl, ?_⟩
      intro a
      simp only [reduceCtorEq, false_iff]
      rintro ⟨rfl, rest, heq⟩
      obtain ⟨hc, hs⟩ := List.cons.inj heq
      rcases hq with hq | hq
      · exact hq hc
      · apply hq
        simp [hs]
    · rw [if_neg hq]
      simp only [not_or, not_not] at hq
      refine ⟨some (s.take n), rfl, ?_⟩
      intro a
      rw [Option.some.injEq]
      constructor
      · rintro rfl
        rw [hq.2] at hsplit
        exact ⟨htake, s.drop (n + 1), by rw [hq.1, ← hsplit]⟩
      · rintro ⟨rfl, rest, heq⟩
        rw [(List.cons.inj heq).2, List.take_left]

theorem isSha_chars {sha : List UInt8} (h : IsSha sha) : Chars sha := by
  apply chars_of_plain
  intro c hc
  exact forall_byte (p := fun c => (digitValue c).isSome = true →
    32 ≤ c ∧ c ≠ quote ∧ c ≠ backslash) (by decide +kernel) c (h.2 c hc)

theorem shaField_spec (s : List UInt8) :
    ∃ r, shaField s = .ok r ∧ ∀ a, r = some a ↔
      IsSha a ∧ ∃ rest, s = quote :: (a ++ quote :: rest) := by
  obtain ⟨r, hrun, hspec⟩ := quotedField_spec 40 s
  unfold shaField
  rw [hrun]
  cases r with
  | none =>
      refine ⟨none, rfl, ?_⟩
      intro a
      simp only [reduceCtorEq, false_iff]
      rintro ⟨ha, hrest⟩
      exact absurd ((hspec a).mpr ⟨ha.1, hrest⟩) (by simp)
  | some sha =>
      obtain ⟨hlen, hrest⟩ := (hspec sha).mp rfl
      have hany : (sha.any fun c => nawamHexDigit c < 0) = true ↔
          ¬ ∀ c ∈ sha, (digitValue c).isSome = true := by
        simp only [List.any_eq_true, decide_eq_true_eq, not_forall,
          ← nawamHexDigit_nonneg_iff, not_le, exists_prop]
      simp only [C.ok_bind]
      by_cases hhex : ∀ c ∈ sha, (digitValue c).isSome = true
      · rw [if_neg fun h => hany.mp h hhex]
        refine ⟨some sha, rfl, ?_⟩
        intro a
        rw [Option.some.injEq]
        constructor
        · rintro rfl
          exact ⟨⟨hlen, hhex⟩, hrest⟩
        · rintro ⟨ha, hrest'⟩
          exact Option.some.inj ((hspec a).mpr ⟨ha.1, hrest'⟩)
      · rw [if_pos (hany.mpr hhex)]
        refine ⟨none, rfl, ?_⟩
        intro a
        simp only [reduceCtorEq, false_iff]
        rintro ⟨ha, hrest'⟩
        have heq := Option.some.inj ((hspec a).mpr ⟨ha.1, hrest'⟩)
        exact hhex (heq ▸ ha.2)

/-- A field check that accepts the plain strings of `p` reads them off the
value. -/
theorem reads_of_quoted {α : Type} {k : List UInt8 → C (Option α)}
    {p : List UInt8 → α → Prop} (hchars : ∀ a b, p a b → Chars a)
    (hk : ∀ s, ∃ r, k s = .ok r ∧ ∀ b, r = some b ↔
      ∃ a, p a b ∧ ∃ rest, s = quote :: (a ++ quote :: rest)) :
    Reads k (fun v b => ∃ a, v = .string a ∧ p a b) := by
  intro v x t hv _
  obtain ⟨r, hrun, hspec⟩ := hk (x ++ t)
  refine ⟨r, hrun, ?_⟩
  intro b
  rw [hspec]
  constructor
  · rintro ⟨a, ha, rest, heq⟩
    exact ⟨a, value_eq_string hv (hchars a b ha) heq, ha⟩
  · rintro ⟨a, rfl, ha⟩
    cases hv with
    | string _ => exact ⟨a, ha, t, by simp⟩

/-! ## The date -/

open DateTime (dec2 dateLayout digit_toNat)

theorem isDigit_ofNat {n : ℕ} (h : n < 10) :
    isDigit (UInt8.ofNat (48 + n)) = true := by
  have htoNat := digit_toNat h
  have h48 : (48 : UInt8).toNat = 48 := rfl
  have h57 : (57 : UInt8).toNat = 57 := rfl
  simp only [isDigit, Bool.and_eq_true, decide_eq_true_eq,
    UInt8.le_iff_toNat_le, htoNat]
  omega

/-- Two digits are the notation of a number below 100. -/
theorem exists_dec2 {a b : UInt8} (ha : isDigit a = true)
    (hb : isDigit b = true) : ∃ n < 100, [a, b] = dec2 n := by
  simp only [isDigit, Bool.and_eq_true, decide_eq_true_eq,
    UInt8.le_iff_toNat_le] at ha hb
  have h48 : (48 : UInt8).toNat = 48 := rfl
  have h57 : (57 : UInt8).toNat = 57 := rfl
  refine ⟨(a.toNat - 48) * 10 + (b.toNat - 48), by omega, ?_⟩
  have hdiv : ((a.toNat - 48) * 10 + (b.toNat - 48)) / 10 = a.toNat - 48 := by
    omega
  have hmod : ((a.toNat - 48) * 10 + (b.toNat - 48)) % 10 = b.toNat - 48 := by
    omega
  have ha' : 48 + (a.toNat - 48) = a.toNat := by omega
  have hb' : 48 + (b.toNat - 48) = b.toNat := by omega
  rw [dec2, hdiv, hmod, ha', hb', UInt8.ofNat_toNat, UInt8.ofNat_toNat]

theorem dateLoop_digit {i : ℕ} (hsep : dateSep i = 0) (c : UInt8)
    (s : List UInt8) :
    dateLoop i (c :: s) = (isDigit c && dateLoop (i + 1) s) := by
  have hdigit : (c < 48 || 57 < c : Bool) = !isDigit c := by
    simp only [isDigit, Bool.not_and, ← UInt8.not_lt, decide_not, Bool.not_not]
  rw [dateLoop, hsep]
  simp only [ne_eq, not_true_eq_false, if_false, hdigit]
  cases isDigit c with
  | true => rfl
  | false => rfl

theorem dateLoop_two {i : ℕ} (h₀ : dateSep i = 0) (h₁ : dateSep (i + 1) = 0)
    {s : List UInt8} (hlen : 2 ≤ s.length) :
    dateLoop i s = true ↔
      ∃ n < 100, ∃ r, s = dec2 n ++ r ∧ dateLoop (i + 2) r = true := by
  match s, hlen with
  | a :: b :: r, _ =>
      rw [dateLoop_digit h₀, dateLoop_digit h₁, Bool.and_eq_true,
        Bool.and_eq_true]
      constructor
      · rintro ⟨ha, hb, hr⟩
        obtain ⟨n, hn, hab⟩ := exists_dec2 ha hb
        exact ⟨n, hn, r, by rw [← hab]; rfl, hr⟩
      · rintro ⟨n, hn, r', heq, hr⟩
        simp only [dec2, List.cons_append, List.nil_append,
          List.cons.injEq] at heq
        obtain ⟨rfl, rfl, rfl⟩ := heq
        exact ⟨isDigit_ofNat (by omega), isDigit_ofNat (by omega), hr⟩

theorem dateLoop_mark {i : ℕ} (hsep : dateSep i ≠ 0) {s : List UInt8}
    (hlen : 1 ≤ s.length) :
    dateLoop i s = true ↔
      ∃ r, s = dateSep i :: r ∧ dateLoop (i + 1) r = true := by
  match s, hlen with
  | c :: r, _ =>
      simp only [dateLoop, ne_eq, hsep, not_false_eq_true, if_true,
        decide_eq_true_eq, List.cons.injEq]
      by_cases hc : c = dateSep i
      · simp [hc]
      · simp [hc]

theorem dateLoop_iff {date : List UInt8} (hlen : date.length = 20) :
    dateLoop 0 date = true ↔ ∃ ce y mo d h mi s : ℕ,
      (∀ n ∈ [ce, y, mo, d, h, mi, s], n < 100) ∧
        date = dateLayout ce y mo d h mi s := by
  have hdec : ∀ n, (dec2 n).length = 2 := fun _ => rfl
  constructor
  · intro h₀
    obtain ⟨ce, hce, s₁, rfl, h₁⟩ := (dateLoop_two rfl rfl (by omega)).mp h₀
    rw [List.length_append, hdec] at hlen
    obtain ⟨y, hy, s₂, rfl, h₂⟩ := (dateLoop_two rfl rfl (by omega)).mp h₁
    rw [List.length_append, hdec] at hlen
    obtain ⟨s₃, rfl, h₃⟩ := (dateLoop_mark (by decide) (by omega)).mp h₂
    rw [List.length_cons] at hlen
    obtain ⟨mo, hmo, s₄, rfl, h₄⟩ := (dateLoop_two rfl rfl (by omega)).mp h₃
    rw [List.length_append, hdec] at hlen
    obtain ⟨s₅, rfl, h₅⟩ := (dateLoop_mark (by decide) (by omega)).mp h₄
    rw [List.length_cons] at hlen
    obtain ⟨d, hd, s₆, rfl, h₆⟩ := (dateLoop_two rfl rfl (by omega)).mp h₅
    rw [List.length_append, hdec] at hlen
    obtain ⟨s₇, rfl, h₇⟩ := (dateLoop_mark (by decide) (by omega)).mp h₆
    rw [List.length_cons] at hlen
    obtain ⟨hh, hhh, s₈, rfl, h₈⟩ := (dateLoop_two rfl rfl (by omega)).mp h₇
    rw [List.length_append, hdec] at hlen
    obtain ⟨s₉, rfl, h₉⟩ := (dateLoop_mark (by decide) (by omega)).mp h₈
    rw [List.length_cons] at hlen
    obtain ⟨mi, hmi, s₁₀, rfl, h₁₀⟩ := (dateLoop_two rfl rfl (by omega)).mp h₉
    rw [List.length_append, hdec] at hlen
    obtain ⟨s₁₁, rfl, h₁₁⟩ := (dateLoop_mark (by decide) (by omega)).mp h₁₀
    rw [List.length_cons] at hlen
    obtain ⟨s, hs, s₁₂, rfl, h₁₂⟩ := (dateLoop_two rfl rfl (by omega)).mp h₁₁
    rw [List.length_append, hdec] at hlen
    obtain ⟨s₁₃, rfl, -⟩ := (dateLoop_mark (by decide) (by omega)).mp h₁₂
    rw [List.length_cons] at hlen
    have hnil : s₁₃ = [] := List.length_eq_zero_iff.mp (by omega)
    subst hnil
    refine ⟨ce, y, mo, d, hh, mi, s, ?_, rfl⟩
    simpa using ⟨hce, hy, hmo, hd, hhh, hmi, hs⟩
  · rintro ⟨ce, y, mo, d, hh, mi, s, hparts, rfl⟩
    simp only [List.forall_mem_cons, List.not_mem_nil, false_imp_iff,
      implies_true, and_true] at hparts
    obtain ⟨hce, hy, hmo, hd, hhh, hmi, hs⟩ := hparts
    have htwo : ∀ {i : ℕ} {n : ℕ} {r : List UInt8}, dateSep i = 0 →
        dateSep (i + 1) = 0 → n < 100 → dateLoop (i + 2) r = true →
        dateLoop i (dec2 n ++ r) = true := by
      intro i n r h₀ h₁ hn hr
      exact (dateLoop_two h₀ h₁ (by rw [List.length_append, hdec]; omega)).mpr
        ⟨n, hn, r, rfl, hr⟩
    have hmark : ∀ {i : ℕ} {r : List UInt8}, dateSep i ≠ 0 →
        dateLoop (i + 1) r = true → dateLoop i (dateSep i :: r) = true := by
      intro i r hsep hr
      exact (dateLoop_mark hsep (by simp)).mpr ⟨r, rfl, hr⟩
    exact htwo rfl rfl hce <| htwo rfl rfl hy <| hmark (i := 4) (by decide) <|
      htwo rfl rfl hmo <| hmark (i := 7) (by decide) <| htwo rfl rfl hd <|
      hmark (i := 10) (by decide) <| htwo rfl rfl hhh <|
      hmark (i := 13) (by decide) <| htwo rfl rfl hmi <|
      hmark (i := 16) (by decide) <| htwo rfl rfl hs <|
      hmark (i := 19) (by decide) rfl

/-! ## The time stamp -/

theorem isLeapYear_eq (y : ℕ) : isLeapYear y = decide (IsLeap y) := by
  rw [Bool.eq_iff_iff, decide_eq_true_iff]
  simp [isLeapYear, IsLeap]

theorem monthDays_eq (y : ℕ) {m : ℕ} (h₁ : 1 ≤ m) (h₁₂ : m ≤ 12) :
    monthDays y m = .ok (daysInMonth y m) := by
  unfold monthDays
  by_cases hfeb : m = 2
  · subst hfeb
    by_cases hleap : IsLeap y
    · simp [entry, mdays, isLeapYear_eq, daysInMonth, hleap]
    · simp [entry, mdays, isLeapYear_eq, daysInMonth, hleap]
  · interval_cases m
    all_goals first | exact absurd rfl hfeb | rfl

theorem yearLoop_eq : ∀ n m : ℕ,
    yearLoop n (1970 + m) (daysBeforeYear m) = daysBeforeYear (m + n)
  | 0, m => rfl
  | n + 1, m => by
      have hyear : 365 + (if isLeapYear (1970 + m) then 1 else 0)
          = daysInYear (1970 + m) := by
        rw [isLeapYear_eq, daysInYear]
        by_cases hleap : IsLeap (1970 + m)
        · simp [hleap]
        · simp [hleap]
      have ih := yearLoop_eq n (m + 1)
      rw [yearLoop, hyear]
      rw [show m + (n + 1) = m + 1 + n by omega, ← ih]
      rfl

theorem monthLoop_eq (y days : ℕ) : ∀ n i : ℕ, 1 ≤ i → i + n ≤ 13 →
    monthLoop y n i (days + daysBeforeMonth y i)
      = .ok (days + daysBeforeMonth y (i + n))
  | 0, i, _, _ => rfl
  | n + 1, i, h₁, h₁₃ => by
      have ih := monthLoop_eq y days n (i + 1) (by omega) (by omega)
      rw [monthLoop, monthDays_eq y h₁ (by omega), C.ok_bind, Nat.add_assoc]
      rw [show i + (n + 1) = i + 1 + n by omega, ← ih]
      rfl

theorem nawamDec2_eq {s : List UInt8} {n v : ℕ} (hv : v < 100)
    (h₀ : load s n = .ok (UInt8.ofNat (48 + v / 10)))
    (h₁ : load s (n + 1) = .ok (UInt8.ofNat (48 + v % 10))) :
    nawamDec2 s n = .ok v := by
  have hd₀ := digit_toNat (n := v / 10) (by omega)
  have hd₁ := digit_toNat (n := v % 10) (by omega)
  simp only [nawamDec2, h₀, h₁, C.ok_bind, hd₀, hd₁, C.pure_eq,
    Except.ok.injEq]
  omega

/-- The string denotes the time `n > 0` seconds after the epoch. -/
def DateStamp (date : List UInt8) (n : ℕ) : Prop :=
  ∃ t, DateTime.Denotes date t ∧ 0 < n ∧ DateTime.tick^[n] DateTime.epoch = t

section Layout

variable {ce y mo d h mi s : ℕ}

theorem nawamDec2_layout (hparts : ∀ n ∈ [ce, y, mo, d, h, mi, s], n < 100) :
    nawamDec2 (dateLayout ce y mo d h mi s) 0 = .ok ce ∧
      nawamDec2 (dateLayout ce y mo d h mi s) 2 = .ok y ∧
      nawamDec2 (dateLayout ce y mo d h mi s) 5 = .ok mo ∧
      nawamDec2 (dateLayout ce y mo d h mi s) 8 = .ok d ∧
      nawamDec2 (dateLayout ce y mo d h mi s) 11 = .ok h ∧
      nawamDec2 (dateLayout ce y mo d h mi s) 14 = .ok mi ∧
      nawamDec2 (dateLayout ce y mo d h mi s) 17 = .ok s := by
  simp only [List.forall_mem_cons, List.not_mem_nil, false_imp_iff,
    implies_true, and_true] at hparts
  obtain ⟨hce, hy, hmo, hd, hh, hmi, hs⟩ := hparts
  exact ⟨nawamDec2_eq hce rfl rfl, nawamDec2_eq hy rfl rfl,
    nawamDec2_eq hmo rfl rfl, nawamDec2_eq hd rfl rfl, nawamDec2_eq hh rfl rfl,
    nawamDec2_eq hmi rfl rfl, nawamDec2_eq hs rfl rfl⟩

/-- A time with this notation has these fields. -/
theorem fields_of_denotes (hparts : ∀ n ∈ [ce, y, mo, d, h, mi, s], n < 100)
    {t : DateTime} (ht : DateTime.Denotes (dateLayout ce y mo d h mi s) t) :
    t.year = ce * 100 + y ∧ t.month = mo ∧ t.day = d ∧ t.hour = h ∧
      t.minute = mi ∧ t.second = s := by
  obtain ⟨hyear, heq⟩ := ht
  have hread := nawamDec2_layout hparts
  obtain ⟨hmonth, hday, hhour, hminute, hsecond⟩ := t.parts_lt
  rw [heq, DateTime.iso] at hread
  have hthere := @nawamDec2_layout (t.year / 100) (t.year % 100) t.month t.day
    t.hour t.minute t.second (by
      simp only [List.forall_mem_cons, List.not_mem_nil, false_imp_iff,
        implies_true, and_true]
      omega)
  simp only [hthere, Except.ok.injEq] at hread
  omega

/-- The layout of the fields of a time denotes that time and no other. -/
theorem dateStamp_iff_of_fields
    (hparts : ∀ n ∈ [ce, y, mo, d, h, mi, s], n < 100) {t : DateTime}
    (hyear : t.year = ce * 100 + y) (hmonth : t.month = mo) (hday : t.day = d)
    (hhour : t.hour = h) (hminute : t.minute = mi) (hsecond : t.second = s)
    (n : ℕ) : DateStamp (dateLayout ce y mo d h mi s) n ↔
      0 < n ∧ t.unixSeconds = n := by
  constructor
  · rintro ⟨t', ht', hpos, htick⟩
    obtain ⟨e₁, e₂, e₃, e₄, e₅, e₆⟩ := fields_of_denotes hparts ht'
    have htt : t' = t := by
      apply DateTime.ext
      · rw [e₁, hyear]
      · rw [e₂, hmonth]
      · rw [e₃, hday]
      · rw [e₄, hhour]
      · rw [e₅, hminute]
      · rw [e₆, hsecond]
    rw [htt, DateTime.tick_iterate_eq_iff] at htick
    exact ⟨hpos, htick⟩
  · rintro ⟨hpos, hn⟩
    have hdenotes : DateTime.Denotes (dateLayout ce y mo d h mi s) t := by
      have hce := hparts ce (by simp)
      have hy := hparts y (by simp)
      refine ⟨by omega, ?_⟩
      rw [DateTime.iso, hyear, hmonth, hday, hhour, hminute, hsecond]
      congr 1
      · omega
      · omega
    exact ⟨t, hdenotes, hpos, (DateTime.tick_iterate_eq_iff n t).mpr hn⟩

/-- **The arithmetic of the date**: the time stamp of an existing date, and
none for any other. -/
theorem dateStamp_spec (hparts : ∀ n ∈ [ce, y, mo, d, h, mi, s], n < 100) :
    ∃ r, dateStamp (dateLayout ce y mo d h mi s) = .ok r ∧
      ∀ n, r = some n ↔ DateStamp (dateLayout ce y mo d h mi s) n := by
  obtain ⟨h₁, h₂, h₃, h₄, h₅, h₆, h₇⟩ := nawamDec2_layout hparts
  have hfields := fun t => fields_of_denotes hparts (t := t)
  unfold dateStamp
  rw [h₁, h₂, h₃, h₄, h₅, h₆, h₇]
  simp only [C.ok_bind]
  by_cases hrange : ce * 100 + y < 1970 ∨ mo < 1 ∨ 12 < mo ∨ 23 < h ∨
      59 < mi ∨ 59 < s
  · refine ⟨none, by rw [if_pos hrange]; rfl, ?_⟩
    intro n
    simp only [reduceCtorEq, false_iff]
    rintro ⟨t, ht, -⟩
    obtain ⟨e₁, e₂, e₃, e₄, e₅, e₆⟩ := hfields t ht
    have := t.year_ge
    have := t.month_pos
    have := t.month_le
    have := t.hour_lt
    have := t.minute_lt
    have := t.second_lt
    omega
  rw [if_neg hrange, monthDays_eq _ (by omega) (by omega), C.ok_bind]
  by_cases hday : d = 0 ∨ daysInMonth (ce * 100 + y) mo < d
  · refine ⟨none, by rw [if_pos hday]; rfl, ?_⟩
    intro n
    simp only [reduceCtorEq, false_iff]
    rintro ⟨t, ht, -⟩
    obtain ⟨e₁, e₂, e₃, e₄, e₅, e₆⟩ := hfields t ht
    have hpos := t.day_pos
    have hle := t.day_le
    rw [e₁, e₂] at hle
    omega
  rw [if_neg hday]
  -- the date exists: this is the time it denotes
  obtain ⟨t, hyear, hmonth, hd, hhour, hminute, hsecond⟩ : ∃ t : DateTime,
      t.year = ce * 100 + y ∧ t.month = mo ∧ t.day = d ∧ t.hour = h ∧
        t.minute = mi ∧ t.second = s :=
    ⟨⟨ce * 100 + y, mo, d, h, mi, s, by omega, by omega, by omega, by omega,
      by omega, by omega, by omega, by omega⟩, rfl, rfl, rfl, rfl, rfl, rfl⟩
  have hyears := yearLoop_eq (ce * 100 + y - 1970) 0
  have hmonths := monthLoop_eq (ce * 100 + y)
    (daysBeforeYear (0 + (ce * 100 + y - 1970))) (mo - 1) 1 le_rfl (by omega)
  rw [daysBeforeMonth_one, Nat.add_zero] at hmonths
  simp only [Nat.add_zero, daysBeforeYear] at hyears
  rw [hyears, hmonths, C.ok_bind]
  have hstamp : ((daysBeforeYear (0 + (ce * 100 + y - 1970)) +
      daysBeforeMonth (ce * 100 + y) (1 + (mo - 1)) + d - 1) * 24 + h) * 3600 +
      mi * 60 + s = t.unixSeconds := by
    have hmo : 1 + (mo - 1) = mo := by omega
    rw [DateTime.unixSeconds, DateTime.dayNumber, hyear, hmonth, hd, hhour,
      hminute, hsecond, hmo, Nat.zero_add]
  have hunique := dateStamp_iff_of_fields hparts hyear hmonth hd hhour hminute
    hsecond
  simp only [hstamp, hunique]
  by_cases hzero : t.unixSeconds = 0
  · refine ⟨none, by rw [if_pos hzero]; rfl, ?_⟩
    intro n
    simp only [reduceCtorEq, false_iff]
    omega
  · refine ⟨some t.unixSeconds, by rw [if_neg hzero]; rfl, ?_⟩
    intro n
    rw [Option.some.injEq]
    omega

end Layout

theorem dateStamp_length {date : List UInt8} {n : ℕ} (h : DateStamp date n) :
    date.length = 20 := by
  obtain ⟨t, ⟨-, rfl⟩, -⟩ := h
  rfl

/-- A string that denotes a time has the layout of a date. -/
theorem dateLoop_of_dateStamp {date : List UInt8} {n : ℕ}
    (h : DateStamp date n) : dateLoop 0 date = true := by
  rw [dateLoop_iff (dateStamp_length h)]
  obtain ⟨t, ⟨hyear, rfl⟩, -⟩ := h
  obtain ⟨hmonth, hday, hhour, hminute, hsecond⟩ := t.parts_lt
  refine ⟨_, _, _, _, _, _, _, ?_, rfl⟩
  simp only [List.forall_mem_cons, List.not_mem_nil, false_imp_iff,
    implies_true, and_true]
  omega

theorem dateField_spec (s : List UInt8) :
    ∃ r, dateField s = .ok r ∧ ∀ n, r = some n ↔
      ∃ date, DateStamp date n ∧ ∃ rest, s = quote :: (date ++ quote :: rest) := by
  obtain ⟨r, hrun, hspec⟩ := quotedField_spec 20 s
  unfold dateField
  rw [hrun]
  cases r with
  | none =>
      refine ⟨none, rfl, ?_⟩
      intro n
      simp only [reduceCtorEq, false_iff]
      rintro ⟨date, hstamp, hrest⟩
      exact absurd ((hspec date).mpr ⟨dateStamp_length hstamp, hrest⟩) (by simp)
  | some date =>
      obtain ⟨hlen, hrest⟩ := (hspec date).mp rfl
      -- the string between the quotes is determined
      have hdate : ∀ n, (∃ date', DateStamp date' n ∧
          ∃ rest, s = quote :: (date' ++ quote :: rest)) ↔ DateStamp date n := by
        intro n
        constructor
        · rintro ⟨date', hstamp, hrest'⟩
          have heq := (hspec date').mpr ⟨dateStamp_length hstamp, hrest'⟩
          exact Option.some.inj heq ▸ hstamp
        · intro hstamp
          exact ⟨date, hstamp, hrest⟩
      simp only [C.ok_bind, hdate]
      by_cases hloop : dateLoop 0 date = true
      · rw [if_pos hloop]
        obtain ⟨ce, y, mo, d, h, mi, s, hparts, rfl⟩ := (dateLoop_iff hlen).mp hloop
        exact dateStamp_spec hparts
      · rw [if_neg hloop]
        refine ⟨none, rfl, ?_⟩
        intro n
        simp only [reduceCtorEq, false_iff]
        exact fun hstamp => hloop (dateLoop_of_dateStamp hstamp)

theorem dateSep_plain {i : ℕ} (h : dateSep i ≠ 0) :
    32 ≤ dateSep i ∧ dateSep i ≠ quote ∧ dateSep i ≠ backslash := by
  unfold dateSep at h ⊢
  split
  · decide
  · split
    · decide
    · split
      · decide
      · split
        · decide
        · simp_all

theorem dateLoop_plain : ∀ {i : ℕ} {s : List UInt8}, dateLoop i s = true →
    ∀ c ∈ s, 32 ≤ c ∧ c ≠ quote ∧ c ≠ backslash
  | i, c :: s, h, d, hd => by
      by_cases hsep : dateSep i = 0
      · rw [dateLoop_digit hsep, Bool.and_eq_true] at h
        rcases List.mem_cons.mp hd with rfl | hd'
        · exact forall_byte (p := fun c => isDigit c = true →
            32 ≤ c ∧ c ≠ quote ∧ c ≠ backslash) (by decide +kernel) d h.1
        · exact dateLoop_plain h.2 d hd'
      · obtain ⟨r, heq, hr⟩ := (dateLoop_mark hsep (by simp)).mp h
        obtain ⟨rfl, rfl⟩ := List.cons.inj heq
        rcases List.mem_cons.mp hd with rfl | hd'
        · exact dateSep_plain hsep
        · exact dateLoop_plain hr d hd'

theorem dateStamp_chars {date : List UInt8} {n : ℕ} (h : DateStamp date n) :
    Chars date :=
  chars_of_plain (dateLoop_plain (dateLoop_of_dateStamp h))

/-! ## The document -/

theorem nawamJsonValue_rbracket (fuel : ℕ) (t : List UInt8) :
    nawamJsonValue (fuel + 1) 0 (rbracket :: t) = .ok none := by
  have hword : ∀ (d : UInt8) (word : List UInt8), d ≠ rbracket →
      ¬ (d :: word) <+: rbracket :: t := by
    intro d word hd hpre
    exact hd (List.cons_prefix_cons.mp hpre).1
  have htrue : ¬ text "true" <+: rbracket :: t := hword 116 _ (by decide)
  have hnull : ¬ text "null" <+: rbracket :: t := hword 110 _ (by decide)
  have hfalse : ¬ text "false" <+: rbracket :: t := hword 102 _ (by decide)
  rw [nawamJsonValue_cons (by omega) fuel
    (nawamJsonSpace_cons (by decide) t), if_neg (by decide), if_neg (by decide),
    nawamJsonScalar_eq (by simp), scalarRest,
    if_neg (not_or.mpr ⟨htrue, hnull⟩), if_neg hfalse]
  have hdigits : someDigits (rbracket :: t) = none := by
    simp [someDigits, skipDigits, isDigit]
  simp [unsignedRest, hdigits]

/-- The first item of an array, and what the search for the closing bracket
sees behind it. -/
theorem firstItem_item {w w' x : List UInt8} {v : Json} {c : UInt8} (hw : Ws w)
    (hv : Value v x) (hw' : Ws w') (hdepth : v.depth ≤ 32)
    (hc : c = rbracket ∨ c = comma) (t : List UInt8) :
    firstItem (lbracket :: (w ++ (x ++ (w' ++ c :: t)))) =
      .ok (if c = rbracket then some (x ++ w') else none) := by
  obtain ⟨hval, hrest⟩ := nawamJsonValue_delimited hv hw' hdepth (Or.inr hc) t
  have hobject := nawamJsonSpace_value hw hv (w' ++ c :: t)
  have htake : (x ++ (w' ++ c :: t)).take
      ((x ++ (w' ++ c :: t)).length - (c :: t).length) = x ++ w' := by
    rw [← List.append_assoc, List.length_append, Nat.add_sub_cancel,
      List.take_left]
  unfold firstItem
  simp only [peek_cons, C.ok_bind, List.tail_cons, hobject, hval, hrest,
    reduceCtorEq, if_false, ne_eq, not_true_eq_false, htake]
  rcases hc with rfl | rfl
  · rfl
  · rfl

theorem firstItem_spec (t : List UInt8) {v : Json} {x : List UInt8}
    (hv : Value v x) (hdepth : v.depth ≤ 32) :
    ∃ r, firstItem (x ++ t) = .ok r ∧
      (∀ s, r = some s → ∃ u y w, v = .array [u] ∧ Value u y ∧ s = y ++ w) ∧
      ∀ u, v = .array [u] → ∃ y w, Value u y ∧ r = some (y ++ w) := by
  by_cases harr : ∃ vs, v = .array vs
  · obtain ⟨vs, rfl⟩ := harr
    cases hv with
    | @emptyArray w hw =>
        refine ⟨none, ?_, by simp, by simp⟩
        have hspace : nawamJsonSpace (w ++ rbracket :: t) = rbracket :: t := by
          rw [nawamJsonSpace_append hw, nawamJsonSpace_cons (by decide)]
        unfold firstItem
        simp only [List.cons_append, List.append_assoc, List.nil_append,
          peek_cons, C.ok_bind, List.tail_cons, hspace, ne_eq,
          not_true_eq_false, if_false, nawamJsonValue_rbracket]
        rfl
    | @array vs s hvs =>
        cases hvs with
        | @last w w' y u hw hu hw' =>
            simp only [Json.depth, depthItems] at hdepth
            refine ⟨some (y ++ w'), ?_, ?_, ?_⟩
            · have hitem := firstItem_item hw hu hw' (by omega) (Or.inl rfl) t
              rw [if_pos rfl] at hitem
              rw [← hitem]
              exact congrArg firstItem (by simp)
            · intro s hs
              exact ⟨u, y, w', rfl, hu, (Option.some.inj hs).symm⟩
            · intro u' heq
              simp only [Json.array.injEq, List.cons.injEq, and_true] at heq
              exact ⟨y, w', heq ▸ hu, rfl⟩
        | @cons w w' y r u us hw hu hw' hus =>
            simp only [Json.depth, depthItems] at hdepth
            have hne : us ≠ [] := by
              rintro rfl
              cases hus
            refine ⟨none, ?_, by simp, ?_⟩
            · have hitem := firstItem_item hw hu hw' (by omega) (Or.inr rfl)
                (r ++ rbracket :: t)
              rw [if_neg (by decide)] at hitem
              rw [← hitem]
              exact congrArg firstItem (by simp)
            · intro u' heq
              simp only [Json.array.injEq, List.cons.injEq] at heq
              exact absurd heq.2 hne
  · obtain ⟨c, r, rfl, -⟩ := value_head hv
    have hbracket : c ≠ lbracket := by
      rintro rfl
      cases hv with
      | number hn =>
          obtain ⟨c, r', heq, hc⟩ := number_head hn
          rw [← (List.cons.inj heq).1] at hc
          exact absurd hc (by decide)
      | emptyArray hw => exact harr ⟨_, rfl⟩
      | array hms => exact harr ⟨_, rfl⟩
    refine ⟨none, ?_, by simp, ?_⟩
    · simp [firstItem, hbracket]
    · intro u heq
      exact absurd ⟨_, heq⟩ harr

theorem commitSpan_spec (text : List UInt8) :
    ∃ r, commitSpan text = .ok r ∧
      (∀ s, r = some s → ∃ u y w, JsonText (.array [u]) text ∧
        (Json.array [u]).depth ≤ 32 ∧ Value u y ∧ s = y ++ w) ∧
      ∀ u, JsonText (.array [u]) text → (Json.array [u]).depth ≤ 32 →
        ∃ y w, Value u y ∧ r = some (y ++ w) := by
  obtain ⟨o, hrun, hsound⟩ := (walker_sound (2 * text.length + 1)).1 0 text le_rfl
  -- along any derivation of the text, the first walk ends in white space
  have hcomplete : ∀ u, JsonText u text → u.depth ≤ 32 →
      ∃ x w, Value u x ∧ Ws w ∧ o = some w ∧
        nawamJsonSpace text = x ++ w := by
    rintro u ⟨w₀, x, w, hw₀, hu, hw, rfl⟩ hd
    have hval := value_complete hu w₀ w _ 0 hw₀ (follow_ws_end hw) (by omega)
      (le_refl (2 * (w₀ ++ (x ++ w)).length + 1))
    rw [hrun] at hval
    exact ⟨x, w, hu, hw, Except.ok.inj hval, nawamJsonSpace_value hw₀ hu w⟩
  unfold commitSpan
  rw [hrun]
  cases o with
  | none =>
      refine ⟨none, rfl, by simp, ?_⟩
      intro u hu hd
      obtain ⟨x, w, -, -, hnone, -⟩ := hcomplete _ hu hd
      exact absurd hnone (by simp)
  | some p =>
      simp only [C.ok_bind]
      by_cases hend : nawamJsonSpace p = []
      · rw [if_neg (not_not.mpr hend)]
        obtain ⟨w, x, v, heq, hw, hv, hd⟩ := hsound p rfl
        have hp : Ws p := nawamJsonSpace_eq_nil_iff.mp hend
        have hspace : nawamJsonSpace text = x ++ p := by
          rw [heq]
          exact nawamJsonSpace_value hw hv p
        have htext : JsonText v text := ⟨w, x, p, hw, hv, hp, heq⟩
        obtain ⟨r, hitem, hfound, -⟩ := firstItem_spec p hv (by omega)
        refine ⟨r, by rw [hspace]; exact hitem, ?_, ?_⟩
        · intro s hs
          obtain ⟨u, y, w', rfl, hu, rfl⟩ := hfound s hs
          exact ⟨u, y, w', htext, by omega, hu, rfl⟩
        · intro u hu hdu
          obtain ⟨x', w', hx', -, -, hspace'⟩ := hcomplete _ hu hdu
          obtain ⟨r', hitem', -, hall'⟩ := firstItem_spec w' hx' hdu
          rw [← hspace', hspace, hitem] at hitem'
          rw [Except.ok.inj hitem']
          exact hall' u rfl
      · rw [if_pos hend]
        refine ⟨none, rfl, by simp, ?_⟩
        intro u hu hd
        obtain ⟨x, w, -, hw, hsome, -⟩ := hcomplete _ hu hd
        rw [Option.some.inj hsome] at hend
        exact absurd (nawamJsonSpace_eq_nil_iff.mpr hw) hend

theorem shaField_reads :
    Reads shaField (fun v sha => ∃ a, v = .string a ∧ IsSha a ∧ a = sha) := by
  apply reads_of_quoted (p := fun a sha => IsSha a ∧ a = sha)
  · intro a sha h
    exact isSha_chars h.1
  · intro s
    obtain ⟨r, hrun, hspec⟩ := shaField_spec s
    refine ⟨r, hrun, ?_⟩
    intro sha
    rw [hspec]
    constructor
    · rintro ⟨hsha, hrest⟩
      exact ⟨sha, ⟨hsha, rfl⟩, hrest⟩
    · rintro ⟨a, ⟨hsha, rfl⟩, hrest⟩
      exact ⟨hsha, hrest⟩

theorem dateField_reads :
    Reads dateField (fun v n => ∃ a, v = .string a ∧ DateStamp a n) :=
  reads_of_quoted (fun _ _ => dateStamp_chars) dateField_spec

theorem uniqueMember_unique {ms : List (List UInt8 × Json)} {name : List UInt8}
    {u u' : Json} (h : UniqueMember ms name u) (h' : UniqueMember ms name u') :
    u = u' := by
  have heq := h.symm.trans h'
  simpa using heq

/-- The value is a commit with this hash and this time stamp. -/
def IsCommit (v : Json) (a : ℕ × List UInt8) : Prop :=
  ∃ members commit committer date, v = .object members ∧
    UniqueMember members (text "sha") (.string a.2) ∧ IsSha a.2 ∧
    UniqueMember members (text "commit") (.object commit) ∧
    UniqueMember commit (text "committer") (.object committer) ∧
    UniqueMember committer (text "date") (.string date) ∧ DateStamp date a.1

theorem commitFields_reads : Reads commitFields IsCommit := by
  intro v x t hv hdepth
  obtain ⟨r₁, hrun₁, hsha⟩ := shaField_reads.withMember (text "sha") t hv hdepth
  obtain ⟨r₂, hrun₂, hdate⟩ := ((dateField_reads.withMember (text "date")
    ).withMember (text "committer")).withMember (text "commit") t hv hdepth
  have hboth : ∀ stamp sha, r₁ = some sha ∧ r₂ = some stamp ↔
      IsCommit v (stamp, sha) := by
    intro stamp sha
    rw [hsha, hdate]
    constructor
    · rintro ⟨⟨ms, u, rfl, hu, a, rfl, hisSha, rfl⟩, ms₁, u₁, heq, hu₁, ms₂, u₂,
        rfl, hu₂, ms₃, u₃, rfl, hu₃, date, rfl, hstamp⟩
      obtain rfl := Json.object.inj heq
      exact ⟨ms, ms₂, ms₃, date, rfl, hu, hisSha, hu₁, hu₂, hu₃, hstamp⟩
    · rintro ⟨ms, commit, committer, date, rfl, hu, hisSha, hu₁, hu₂, hu₃,
        hstamp⟩
      exact ⟨⟨ms, _, rfl, hu, sha, rfl, hisSha, rfl⟩, ms, _, rfl, hu₁, commit, _,
        rfl, hu₂, committer, _, rfl, hu₃, date, rfl, hstamp⟩
  beta_reduce at hrun₁ hrun₂
  unfold commitFields
  rw [hrun₁]
  cases r₁ with
  | none =>
      refine ⟨none, rfl, ?_⟩
      rintro ⟨stamp, sha⟩
      simp [← hboth]
  | some sha =>
      simp only [C.ok_bind, hrun₂]
      cases r₂ with
      | none =>
          refine ⟨none, rfl, ?_⟩
          rintro ⟨stamp, sha'⟩
          simp [← hboth]
      | some stamp =>
          refine ⟨some (stamp, sha), rfl, ?_⟩
          rintro ⟨stamp', sha'⟩
          rw [← hboth]
          simp [and_comm]

/-- The whole function, along every derivation of the text. -/
theorem nawamCommitTimestamp_reads (text : List UInt8) :
    ∃ r, nawamCommitTimestamp text = .ok r ∧
      (∀ a, r = some a → text.length ≤ 1024 * 1024 ∧
        ∃ u, JsonText (.array [u]) text ∧ (Json.array [u]).depth ≤ 32 ∧
          IsCommit u a) ∧
      ∀ u, text.length ≤ 1024 * 1024 → JsonText (.array [u]) text →
        (Json.array [u]).depth ≤ 32 → ∀ a, r = some a ↔ IsCommit u a := by
  obtain ⟨o, hrun, hfound, hall⟩ := commitSpan_spec text
  unfold nawamCommitTimestamp
  by_cases hsize : text = [] ∨ 1024 * 1024 < text.length
  · refine ⟨none, by rw [if_pos hsize]; rfl, by simp, ?_⟩
    rintro u hle ⟨w, x, w', -, hv, -, heq⟩
    obtain ⟨c, r, rfl, -⟩ := value_head hv
    rcases hsize with rfl | hlt
    · simp at heq
    · omega
  rw [if_neg hsize, hrun]
  have hle : text.length ≤ 1024 * 1024 := by
    simp only [not_or, Nat.not_lt] at hsize
    exact hsize.2
  have hitem : ∀ u, (Json.array [u]).depth ≤ 32 → u.depth ≤ 32 := by
    intro u hd
    simp only [Json.depth, depthItems] at hd
    omega
  cases o with
  | none =>
      refine ⟨none, rfl, by simp, ?_⟩
      intro u _ htext hd
      obtain ⟨y, w, -, hnone⟩ := hall u htext hd
      exact absurd hnone (by simp)
  | some s =>
      obtain ⟨u, y, w, htext, hd, hu, rfl⟩ := hfound s rfl
      obtain ⟨r, hfields, hspec⟩ := commitFields_reads w hu (hitem u hd)
      refine ⟨r, hfields, ?_, ?_⟩
      · intro a ha
        exact ⟨hle, u, htext, hd, (hspec a).mp ha⟩
      · intro u' _ htext' hd'
        obtain ⟨y', w', hu', heq⟩ := hall u' htext' hd'
        obtain ⟨r', hfields', hspec'⟩ := commitFields_reads w' hu' (hitem u' hd')
        rw [← Option.some.inj heq, hfields] at hfields'
        rw [Except.ok.inj hfields']
        exact hspec'

/-- The function returns on every document, and a time stamp is a positive
`int64_t`. -/
theorem nawamCommitTimestamp_bounds (text : List UInt8) :
    ∃ r, nawamCommitTimestamp text = .ok r ∧
      ∀ stamp sha, r = some (stamp, sha) → 0 < stamp ∧ stamp < 2 ^ 63 := by
  obtain ⟨r, hrun, hfound, -⟩ := nawamCommitTimestamp_reads text
  refine ⟨r, hrun, ?_⟩
  intro stamp sha hr
  obtain ⟨-, u, -, -, members, commit, committer, date, -, -, -, -, -, -, t,
    ⟨hyear, -⟩, hpos, htick⟩ := hfound _ hr
  rw [DateTime.tick_iterate_eq_iff] at htick
  have hlt := t.unixSeconds_lt_of_year hyear
  rw [htick] at hlt
  exact ⟨hpos, hlt⟩

/-- **The function accepts exactly the commit documents with an existing date
after the epoch, the time stamp is the Unix time of that date**, and the time
stamps of accepted documents are ordered as their date strings. -/
theorem nawamCommitTimestamp_spec :
    (∀ text, ∃ r, nawamCommitTimestamp text = .ok r ∧
      ∀ stamp sha, r = some (stamp, sha) ↔
        text.length ≤ 1024 * 1024 ∧ ∃ date t, CommitDocument text sha date ∧
          DateTime.Denotes date t ∧ 0 < stamp ∧
          DateTime.tick^[stamp] DateTime.epoch = t) ∧
    ∀ text₁ text₂ stamp₁ stamp₂ sha₁ sha₂ date₁ date₂,
      nawamCommitTimestamp text₁ = .ok (some (stamp₁, sha₁)) →
      nawamCommitTimestamp text₂ = .ok (some (stamp₂, sha₂)) →
      CommitDocument text₁ sha₁ date₁ → CommitDocument text₂ sha₂ date₂ →
      (stamp₁ < stamp₂ ↔ date₁ < date₂) := by
  constructor
  · intro text
    obtain ⟨r, hrun, hfound, hall⟩ := nawamCommitTimestamp_reads text
    refine ⟨r, hrun, ?_⟩
    intro stamp sha
    constructor
    · intro hr
      obtain ⟨hle, u, htext, hd, members, commit, committer, date, rfl, hsha,
        hisSha, hcommit, hcommitter, hdate, t, hdenotes, hpos, htick⟩ :=
        hfound _ hr
      exact ⟨hle, date, t, ⟨members, commit, committer, htext, hd, hsha, hisSha,
        hcommit, hcommitter, hdate⟩, hdenotes, hpos, htick⟩
    · rintro ⟨hle, date, t, ⟨members, commit, committer, htext, hd, hsha, hisSha,
        hcommit, hcommitter, hdate⟩, hdenotes, hpos, htick⟩
      exact (hall _ hle htext hd (stamp, sha)).mpr ⟨members, commit, committer,
        date, rfl, hsha, hisSha, hcommit, hcommitter, hdate, t, hdenotes, hpos,
        htick⟩
  · -- the date of an accepted document denotes its time stamp
    have hstamp : ∀ {text stamp sha date},
        nawamCommitTimestamp text = .ok (some (stamp, sha)) →
        CommitDocument text sha date → DateStamp date stamp := by
      rintro text stamp sha date hacc ⟨members, commit, committer, htext, hd,
        -, -, hcommit, hcommitter, hdate⟩
      obtain ⟨r, hrun, hfound, hall⟩ := nawamCommitTimestamp_reads text
      rw [hacc] at hrun
      have hr := (Except.ok.inj hrun).symm
      obtain ⟨ms, c, ct, date', heq, -, -, hc, hct, hdate', hstamp⟩ :=
        (hall _ (hfound _ hr).1 htext hd _).mp hr
      obtain rfl := Json.object.inj heq
      obtain rfl := Json.object.inj (uniqueMember_unique hcommit hc)
      obtain rfl := Json.object.inj (uniqueMember_unique hcommitter hct)
      obtain rfl := Json.string.inj (uniqueMember_unique hdate hdate')
      exact hstamp
    intro text₁ text₂ stamp₁ stamp₂ sha₁ sha₂ date₁ date₂ hacc₁ hacc₂ hdoc₁ hdoc₂
    obtain ⟨t₁, ⟨hyear₁, rfl⟩, -, htick₁⟩ := hstamp hacc₁ hdoc₁
    obtain ⟨t₂, ⟨hyear₂, rfl⟩, -, htick₂⟩ := hstamp hacc₂ hdoc₂
    rw [DateTime.tick_iterate_eq_iff] at htick₁ htick₂
    rw [DateTime.iso_lt_iff hyear₁ hyear₂, ← DateTime.unixSeconds_lt_iff, htick₁,
      htick₂]

def tinyCommit (date : String) : List UInt8 :=
  text "[\x7b\"sha\":\"0123456789abcdef0123456789abcdef01234567\"," ++
    (text "\"commit\":\x7b\"committer\":\x7b\"date\":\"" ++
      (text date ++ text "\"\x7d\x7d\x7d]"))

theorem nawamCommitTimestamp_spec_tiny :
    ∃ sha date₁ date₂,
      CommitDocument (tinyCommit "2026-09-01T12:34:56Z") sha date₁ ∧
      CommitDocument (tinyCommit "2026-09-01T12:35:00Z") sha date₂ ∧
      date₁ < date₂ := by
  have hacc₁ : nawamCommitTimestamp (tinyCommit "2026-09-01T12:34:56Z") = .ok
      (some (1788266096, text "0123456789abcdef0123456789abcdef01234567")) := by
    decide
  have hacc₂ : nawamCommitTimestamp (tinyCommit "2026-09-01T12:35:00Z") = .ok
      (some (1788266100, text "0123456789abcdef0123456789abcdef01234567")) := by
    decide
  obtain ⟨r₁, hrun₁, hspec₁⟩ := nawamCommitTimestamp_spec.1
    (tinyCommit "2026-09-01T12:34:56Z")
  obtain ⟨r₂, hrun₂, hspec₂⟩ := nawamCommitTimestamp_spec.1
    (tinyCommit "2026-09-01T12:35:00Z")
  rw [hacc₁] at hrun₁
  rw [hacc₂] at hrun₂
  obtain ⟨-, date₁, t₁, hdoc₁, -⟩ := (hspec₁ _ _).mp (Except.ok.inj hrun₁).symm
  obtain ⟨-, date₂, t₂, hdoc₂, -⟩ := (hspec₂ _ _).mp (Except.ok.inj hrun₂).symm
  exact ⟨_, date₁, date₂, hdoc₁, hdoc₂, (nawamCommitTimestamp_spec.2 _ _ _ _ _ _ _
    _ hacc₁ hacc₂ hdoc₁ hdoc₂).mp (by decide)⟩

end Nawam
