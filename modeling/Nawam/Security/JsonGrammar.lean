import Nawam.Security.Json

/-!
# The walker recognises the grammar

Soundness and completeness of the JSON walker with respect to the grammar of
`Base.Json`, and that it neither faults nor runs out of fuel. The walker is
greedy and the grammar is not: a number may be cut short in a derivation and
never is by the walker, so completeness asks of what follows the value that
it cannot continue a number (`Follow`). Everything that can stand behind a
value inside a text satisfies it.
-/

namespace Nawam

open Ascii

/-! ## White space -/

theorem nawamJsonSpace_append {w : List UInt8} (h : Ws w) (s : List UInt8) :
    nawamJsonSpace (w ++ s) = nawamJsonSpace s := by
  unfold nawamJsonSpace
  exact List.dropWhile_append_of_pos h

theorem nawamJsonSpace_cons {c : UInt8} (h : isJsonSpace c = false)
    (s : List UInt8) : nawamJsonSpace (c :: s) = c :: s := by
  simp [nawamJsonSpace, h]

theorem exists_ws (s : List UInt8) :
    ∃ w, Ws w ∧ s = w ++ nawamJsonSpace s :=
  ⟨s.takeWhile isJsonSpace, fun _ hc => List.mem_takeWhile_imp hc,
    (List.takeWhile_append_dropWhile).symm⟩

theorem nawamJsonSpace_length_le (s : List UInt8) :
    (nawamJsonSpace s).length ≤ s.length :=
  (List.dropWhile_suffix _).length_le

theorem Ws.nil : Ws [] := by
  intro c hc
  simp at hc

/-! ## Strings -/

/-- `s` goes on with the inside of a string and its closing quote, and `t` is
left. -/
def StringRest (s t : List UInt8) : Prop :=
  ∃ cs, Chars cs ∧ s = cs ++ quote :: t

theorem not_stringRest_nil (t : List UInt8) : ¬ StringRest [] t := by
  rintro ⟨cs, -, h⟩
  simp at h

theorem stringRest_quote {s t : List UInt8} :
    StringRest (quote :: s) t ↔ t = s := by
  constructor
  · rintro ⟨cs, hcs, h⟩
    cases hcs with
    | nil => simpa using h.symm
    | plain _ hq _ _ => exact absurd (List.cons.inj h).1.symm hq
    | escape _ _ => simp at h
    | unicode _ _ _ => simp at h
  · rintro rfl
    exact ⟨[], .nil, rfl⟩

theorem stringRest_plain {c : UInt8} {s t : List UInt8} (h32 : 32 ≤ c)
    (hq : c ≠ quote) (hb : c ≠ backslash) :
    StringRest (c :: s) t ↔ StringRest s t := by
  constructor
  · rintro ⟨cs, hcs, h⟩
    cases hcs with
    | nil => exact absurd (List.cons.inj h).1 hq
    | plain _ _ _ hrest => exact ⟨_, hrest, (List.cons.inj h).2⟩
    | escape _ _ => exact absurd (List.cons.inj h).1 hb
    | unicode _ _ _ => exact absurd (List.cons.inj h).1 hb
  · rintro ⟨cs, hcs, rfl⟩
    exact ⟨c :: cs, .plain h32 hq hb hcs, rfl⟩

theorem not_stringRest_control {c : UInt8} {s t : List UInt8} (h : c < 32) :
    ¬ StringRest (c :: s) t := by
  rintro ⟨cs, hcs, heq⟩
  cases hcs with
  | nil =>
      rw [(List.cons.inj heq).1] at h
      exact absurd h (by decide)
  | plain h32 _ _ _ =>
      rw [(List.cons.inj heq).1] at h
      exact absurd h32 (UInt8.not_le.mpr h)
  | escape _ _ =>
      rw [(List.cons.inj heq).1] at h
      exact absurd h (by decide)
  | unicode _ _ _ =>
      rw [(List.cons.inj heq).1] at h
      exact absurd h (by decide)

theorem not_stringRest_backslash (t : List UInt8) :
    ¬ StringRest [backslash] t := by
  rintro ⟨cs, hcs, h⟩
  cases hcs with
  | nil => simp at h
  | plain _ _ hb _ => exact hb (List.cons.inj h).1.symm
  | escape _ _ => simp at h
  | unicode _ _ _ => simp at h

theorem stringRest_escape {c : UInt8} {s t : List UInt8} (hc : c ≠ 117) :
    StringRest (backslash :: c :: s) t ↔ c ∈ escapes ∧ StringRest s t := by
  constructor
  · rintro ⟨cs, hcs, h⟩
    cases hcs with
    | nil => simp at h
    | plain _ _ hb _ => exact absurd (List.cons.inj h).1.symm hb
    | escape hmem hrest =>
        obtain ⟨hhead, htail⟩ := List.cons.inj (List.cons.inj h).2
        rw [hhead]
        exact ⟨hmem, _, hrest, htail⟩
    | unicode _ _ _ =>
        exact absurd (List.cons.inj (List.cons.inj h).2).1 hc
  · rintro ⟨hmem, cs, hcs, rfl⟩
    exact ⟨backslash :: c :: cs, .escape hmem hcs, rfl⟩

theorem stringRest_unicode {s t : List UInt8} :
    StringRest (backslash :: 117 :: s) t ↔
      ∃ s', (∃ h : List UInt8, h.length = 4 ∧
        (∀ c ∈ h, (digitValue c).isSome = true) ∧ s = h ++ s') ∧
        StringRest s' t := by
  constructor
  · rintro ⟨cs, hcs, h⟩
    cases hcs with
    | nil => simp at h
    | plain _ _ hb _ => exact absurd (List.cons.inj h).1.symm hb
    | escape hmem hrest =>
        obtain ⟨hhead, -⟩ := List.cons.inj (List.cons.inj h).2
        rw [← hhead] at hmem
        exact absurd hmem (by decide)
    | unicode hlen hhex hrest =>
        obtain ⟨-, htail⟩ := List.cons.inj (List.cons.inj h).2
        exact ⟨_, ⟨_, hlen, hhex, htail.trans (List.append_assoc _ _ _)⟩, _,
          hrest, rfl⟩
  · rintro ⟨s', ⟨h, hlen, hhex, rfl⟩, cs, hcs, rfl⟩
    exact ⟨backslash :: 117 :: (h ++ cs), .unicode hlen hhex hcs, by simp⟩

theorem hexLoop_spec : ∀ (n : ℕ) (s : List UInt8),
    ∃ r, hexLoop n s = .ok r ∧ ∀ t, r = some t ↔
      ∃ h : List UInt8, h.length = n ∧
        (∀ c ∈ h, (digitValue c).isSome = true) ∧ s = h ++ t
  | 0, s => by
      refine ⟨some s, rfl, ?_⟩
      intro t
      constructor
      · intro h
        exact ⟨[], rfl, by simp, Option.some.inj h⟩
      · rintro ⟨h, hlen, -, rfl⟩
        rw [List.length_eq_zero_iff.mp hlen]
        rfl
  | n + 1, [] => by
      refine ⟨none, rfl, ?_⟩
      intro t
      simp only [reduceCtorEq, false_iff]
      rintro ⟨h, hlen, -, heq⟩
      rw [(List.append_eq_nil_iff.mp heq.symm).1] at hlen
      simp at hlen
  | n + 1, c :: s => by
      obtain ⟨r, hr, hspec⟩ := hexLoop_spec n s
      by_cases hc : (digitValue c).isSome = true
      · refine ⟨r, ?_, ?_⟩
        · have hnn : ¬ nawamHexDigit c < 0 :=
            Int.not_lt.mpr ((nawamHexDigit_nonneg_iff c).mpr hc)
          simpa [hexLoop, hnn] using hr
        · intro t
          rw [hspec t]
          constructor
          · rintro ⟨h, hlen, hhex, rfl⟩
            refine ⟨c :: h, by simp [hlen], ?_, rfl⟩
            intro x hx
            rcases List.mem_cons.mp hx with rfl | hx'
            · exact hc
            · exact hhex x hx'
          · rintro ⟨h, hlen, hhex, heq⟩
            cases h with
            | nil => simp at hlen
            | cons x h =>
                refine ⟨h, by simpa using hlen, ?_, (List.cons.inj heq).2⟩
                exact fun y hy => hhex y (List.mem_cons_of_mem x hy)
      · refine ⟨none, ?_, ?_⟩
        · have hneg : nawamHexDigit c < 0 :=
            Int.not_le.mp fun hnn => hc ((nawamHexDigit_nonneg_iff c).mp hnn)
          simp [hexLoop, hneg]
        · intro t
          simp only [reduceCtorEq, false_iff]
          rintro ⟨h, hlen, hhex, heq⟩
          cases h with
          | nil => simp at hlen
          | cons x h =>
              rw [(List.cons.inj heq).1] at hc
              exact hc (hhex x List.mem_cons_self)

theorem stringLoop_spec : ∀ (fuel : ℕ) (s : List UInt8), s.length < fuel →
    ∃ r, stringLoop fuel s = .ok r ∧ ∀ t, r = some t ↔ StringRest s t := by
  intro fuel
  induction fuel with
  | zero =>
      intro s h
      exact absurd h (Nat.not_lt_zero _)
  | succ fuel ih =>
      intro s hfuel
      cases s with
      | nil =>
          refine ⟨none, by simp [stringLoop], ?_⟩
          intro t
          simp [not_stringRest_nil]
      | cons c s =>
          rw [List.length_cons] at hfuel
          by_cases hq : c = quote
          · subst hq
            refine ⟨some s, by simp [stringLoop], ?_⟩
            intro t
            rw [stringRest_quote, Option.some.injEq, eq_comm]
          by_cases h32 : c < 32
          · refine ⟨none, by simp [stringLoop, hq, h32], ?_⟩
            intro t
            simp [not_stringRest_control h32]
          by_cases hb : c = backslash
          · subst hb
            cases s with
            | nil =>
                refine ⟨none, by simp [stringLoop], ?_⟩
                intro t
                simp [not_stringRest_backslash]
            | cons e s =>
                rw [List.length_cons] at hfuel
                by_cases hu : e = 117
                · subst hu
                  obtain ⟨r, hr, hspec⟩ := hexLoop_spec 4 s
                  cases r with
                  | none =>
                      refine ⟨none, by simp [stringLoop, hr], ?_⟩
                      intro t
                      simp only [reduceCtorEq, false_iff, stringRest_unicode]
                      rintro ⟨s', hhex, -⟩
                      exact absurd ((hspec s').mpr hhex) (by simp)
                  | some s' =>
                      obtain ⟨h, hlen, hhex, rfl⟩ := (hspec s').mp rfl
                      rw [List.length_append] at hfuel
                      obtain ⟨r, hrun, hrest⟩ := ih s' (by omega)
                      refine ⟨r, by simpa [stringLoop, hr] using hrun, ?_⟩
                      intro t
                      rw [hrest, stringRest_unicode]
                      constructor
                      · intro hst
                        exact ⟨s', ⟨h, hlen, hhex, rfl⟩, hst⟩
                      · rintro ⟨s₁, hhex₁, hst⟩
                        have heq := (hspec s₁).mpr hhex₁
                        rw [Option.some.inj heq]
                        exact hst
                by_cases hmem : e ∈ escapes
                · obtain ⟨r, hrun, hrest⟩ := ih s (by omega)
                  refine ⟨r, by simpa [stringLoop, hu, hmem] using hrun, ?_⟩
                  intro t
                  rw [hrest, stringRest_escape hu]
                  simp [hmem]
                · refine ⟨none, by simp [stringLoop, hu, hmem], ?_⟩
                  intro t
                  rw [stringRest_escape hu]
                  simp [hmem]
          · obtain ⟨r, hrun, hrest⟩ := ih s (by omega)
            refine ⟨r, ?_, ?_⟩
            · simp only [stringLoop, reduceCtorEq, if_false, peek_cons,
                C.ok_bind, List.tail_cons, hq, h32, hb]
              exact hrun
            · intro t
              rw [hrest, stringRest_plain (UInt8.not_lt.mp h32) hq hb]

/-- **A string is read as the grammar has it.** -/
theorem nawamJsonString_spec (s : List UInt8) :
    ∃ r, nawamJsonString s = .ok r ∧ ∀ t, r = some t ↔
      ∃ cs, Chars cs ∧ s = quote :: (cs ++ quote :: t) := by
  cases s with
  | nil =>
      refine ⟨none, by simp [nawamJsonString], ?_⟩
      intro t
      simp
  | cons c s =>
      by_cases hq : c = quote
      · subst hq
        obtain ⟨r, hrun, hrest⟩ := stringLoop_spec (s.length + 2) s (by omega)
        refine ⟨r, by simpa [nawamJsonString] using hrun, ?_⟩
        intro t
        rw [hrest]
        simp [StringRest]
      · refine ⟨none, by simp [nawamJsonString, hq], ?_⟩
        intro t
        simp only [reduceCtorEq, false_iff]
        rintro ⟨cs, -, h⟩
        exact hq (List.cons.inj h).1

/-! ## Numbers and words -/

/-- What stands behind a value does not continue a number. -/
def Follow (t : List UInt8) : Prop :=
  ∀ c ∈ t.head?, isDigit c = false ∧ c ≠ dot ∧ c ≠ 101 ∧ c ≠ 69

theorem someDigits_eq_some_iff {s t : List UInt8} :
    someDigits s = some t ↔
      ∃ ds, Digits ds ∧ s = ds ++ t ∧ ∀ c ∈ t.head?, isDigit c = false := by
  have hsplit : s = s.takeWhile isDigit ++ skipDigits s :=
    List.takeWhile_append_dropWhile.symm
  have hlen := congrArg List.length hsplit
  rw [List.length_append] at hlen
  unfold someDigits
  constructor
  · intro h
    split at h
    · simp at h
    · rename_i hne
      refine ⟨s.takeWhile isDigit, ⟨?_, ?_⟩, ?_, ?_⟩
      · intro hnil
        rw [hnil, List.length_nil] at hlen
        omega
      · exact fun c hc => List.mem_takeWhile_imp hc
      · rw [← Option.some.inj h]
        exact hsplit
      · intro c hc
        rw [← Option.some.inj h] at hc
        have := List.head?_dropWhile_not isDigit s
        unfold skipDigits at hc
        rw [hc] at this
        simpa using this
  · rintro ⟨ds, ⟨hne, hall⟩, rfl, hstop⟩
    have hskip : skipDigits (ds ++ t) = t := by
      unfold skipDigits
      rw [List.dropWhile_append_of_pos hall]
      cases t with
      | nil => rfl
      | cons c t => simp [hstop c rfl]
    have hpos := List.length_pos_iff.mpr hne
    rw [hskip, if_neg (by rw [List.length_append]; omega)]

theorem fractionPart_sound {s t : List UInt8} (h : fractionPart s = some t) :
    ∃ frac, Frac frac ∧ s = frac ++ t := by
  unfold fractionPart at h
  split at h
  · rename_i hdot
    obtain ⟨r, rfl⟩ := List.head?_eq_some_iff.mp hdot
    obtain ⟨ds, hds, heq, -⟩ := someDigits_eq_some_iff.mp h
    rw [List.tail_cons] at heq
    exact ⟨dot :: ds, Or.inr ⟨ds, hds, rfl⟩, by rw [heq]; rfl⟩
  · exact ⟨[], Or.inl rfl, by simpa using h⟩

theorem fractionPart_complete {frac t : List UInt8} (hf : Frac frac)
    (ht : ∀ c ∈ t.head?, isDigit c = false ∧ c ≠ dot) :
    fractionPart (frac ++ t) = some t := by
  unfold fractionPart
  rcases hf with rfl | ⟨ds, hds, rfl⟩
  · rw [List.nil_append, if_neg]
    intro hdot
    exact (ht dot hdot).2 rfl
  · rw [List.cons_append, List.head?_cons, if_pos rfl, List.tail_cons]
    exact someDigits_eq_some_iff.mpr ⟨ds, hds, rfl, fun c hc => (ht c hc).1⟩

theorem exponentPart_sound {s t : List UInt8} (h : exponentPart s = some t) :
    ∃ exp, Exp exp ∧ s = exp ++ t := by
  unfold exponentPart at h
  split at h
  · rename_i hhead
    obtain ⟨e, r, rfl, he⟩ : ∃ e r, s = e :: r ∧ (e = 101 ∨ e = 69) := by
      rcases hhead with h₁ | h₁
      · obtain ⟨r, rfl⟩ := List.head?_eq_some_iff.mp h₁
        exact ⟨_, r, rfl, Or.inl rfl⟩
      · obtain ⟨r, rfl⟩ := List.head?_eq_some_iff.mp h₁
        exact ⟨_, r, rfl, Or.inr rfl⟩
    obtain ⟨ds, hds, heq, -⟩ := someDigits_eq_some_iff.mp h
    rw [List.tail_cons] at heq
    obtain ⟨sign, hsign, rfl⟩ : ∃ sign,
        (sign = [] ∨ sign = [plus] ∨ sign = [minus]) ∧ r = sign ++ (ds ++ t) := by
      split at heq
      · rename_i hsign
        rcases hsign with hsign | hsign
        · obtain ⟨r', rfl⟩ := List.head?_eq_some_iff.mp hsign
          exact ⟨[plus], by simp, congrArg (plus :: ·) heq⟩
        · obtain ⟨r', rfl⟩ := List.head?_eq_some_iff.mp hsign
          exact ⟨[minus], by simp, congrArg (minus :: ·) heq⟩
      · exact ⟨[], by simp, heq⟩
    exact ⟨e :: (sign ++ ds), Or.inr ⟨e, sign, ds, he, hsign, hds, rfl⟩,
      by simp⟩
  · exact ⟨[], Or.inl rfl, by simpa using h⟩

theorem exponentPart_complete {exp t : List UInt8} (he : Exp exp)
    (ht : Follow t) : exponentPart (exp ++ t) = some t := by
  unfold exponentPart
  rcases he with rfl | ⟨e, sign, ds, he, hsign, hds, rfl⟩
  · rw [List.nil_append, if_neg]
    rintro (h | h)
    · exact (ht _ h).2.2.1 rfl
    · exact (ht _ h).2.2.2 rfl
  · have hdigits : someDigits (ds ++ t) = some t :=
      someDigits_eq_some_iff.mpr ⟨ds, hds, rfl, fun c hc => (ht c hc).1⟩
    obtain ⟨d, ds', rfl⟩ := List.exists_cons_of_ne_nil hds.1
    have hd := hds.2 d List.mem_cons_self
    rw [List.cons_append, List.head?_cons, List.tail_cons, List.append_assoc,
      if_pos (by simpa using he)]
    rcases hsign with rfl | rfl | rfl
    · have hno : d ≠ plus ∧ d ≠ minus := by
        constructor
        · rintro rfl
          exact absurd hd (by decide)
        · rintro rfl
          exact absurd hd (by decide)
      simp only [List.nil_append, List.cons_append, List.head?_cons,
        Option.some.injEq, hno.1, hno.2, or_self, if_false]
      exact hdigits
    · exact hdigits
    · exact hdigits

/-- The head of an exponent is none of the bytes that continue a fraction. -/
theorem exp_head {exp t : List UInt8} (he : Exp exp) (ht : Follow t) :
    ∀ c ∈ (exp ++ t).head?, isDigit c = false ∧ c ≠ dot := by
  intro c hc
  rcases he with rfl | ⟨e, sign, ds, he, -, -, rfl⟩
  · exact ⟨(ht c hc).1, (ht c hc).2.1⟩
  · simp only [List.cons_append, List.head?_cons, Option.mem_some_iff] at hc
    subst hc
    rcases he with rfl | rfl
    · decide
    · decide

/-- What is left of a number behind its integer part. -/
def NumberTail (s t : List UInt8) : Prop :=
  ∃ frac exp, Frac frac ∧ Exp exp ∧ s = frac ++ (exp ++ t)

theorem numberTail_sound {s t : List UInt8} (h : numberTail s = some t) :
    NumberTail s t := by
  obtain ⟨s₁, h₁, h₂⟩ := Option.bind_eq_some_iff.mp h
  obtain ⟨frac, hf, rfl⟩ := fractionPart_sound h₁
  obtain ⟨exp, he, rfl⟩ := exponentPart_sound h₂
  exact ⟨frac, exp, hf, he, rfl⟩

theorem numberTail_complete {frac exp t : List UInt8} (hf : Frac frac)
    (he : Exp exp) (ht : Follow t) :
    numberTail (frac ++ (exp ++ t)) = some t := by
  rw [numberTail, fractionPart_complete hf (exp_head he ht), Option.bind_some]
  exact exponentPart_complete he ht

theorem startsWith_eq (word s : List UInt8) :
    startsWith word s = .ok (decide (word <+: s)) := by
  unfold startsWith
  split
  · rename_i hlt
    have hno : ¬ word <+: s := fun h => absurd h.length_le (by omega)
    simp [hno]
  · rename_i hle
    rw [loadN_of_le (by omega)]
    simp only [C.ok_bind, C.pure_eq, List.drop_zero, Except.ok.injEq,
      decide_eq_decide]
    rw [List.prefix_iff_eq_take, eq_comm]

/-- The number at the head of `s`, without the sign. -/
def unsignedRest (s : List UInt8) : Option (List UInt8) :=
  if s.head? = some zero then numberTail s.tail
  else (someDigits s).bind numberTail

theorem unsignedRest_sound {s t : List UInt8} (h : unsignedRest s = some t) :
    ∃ int, IntPart int ∧ ∃ r, s = int ++ r ∧ NumberTail r t := by
  unfold unsignedRest at h
  split at h
  · rename_i hzero
    obtain ⟨r, rfl⟩ := List.head?_eq_some_iff.mp hzero
    exact ⟨[zero], Or.inl rfl, r, rfl, numberTail_sound h⟩
  · rename_i hzero
    obtain ⟨r, hr, htail⟩ := Option.bind_eq_some_iff.mp h
    obtain ⟨ds, hds, rfl, -⟩ := someDigits_eq_some_iff.mp hr
    refine ⟨ds, Or.inr ⟨hds, ?_⟩, r, rfl, numberTail_sound htail⟩
    obtain ⟨d, ds', rfl⟩ := List.exists_cons_of_ne_nil hds.1
    exact hzero

theorem unsignedRest_complete {int frac exp t : List UInt8}
    (hint : IntPart int) (hf : Frac frac) (he : Exp exp) (ht : Follow t) :
    unsignedRest (int ++ (frac ++ (exp ++ t))) = some t := by
  have htail := numberTail_complete hf he ht
  unfold unsignedRest
  rcases hint with rfl | ⟨hds, hzero⟩
  · exact htail
  · obtain ⟨d, ds, rfl⟩ := List.exists_cons_of_ne_nil hds.1
    rw [List.cons_append, List.head?_cons, if_neg (by simpa using hzero),
      ← List.cons_append, someDigits_eq_some_iff.mpr ⟨_, hds, rfl, ?_⟩]
    · exact htail
    -- the digits end where the fraction, the exponent or the rest begins
    · intro c hc
      rcases hf with rfl | ⟨fs, -, rfl⟩
      · exact (exp_head he ht c hc).1
      · simp only [List.cons_append, List.head?_cons, Option.mem_some_iff] at hc
        subst hc
        decide

/-- `nawamJsonScalar` without the checks. -/
def scalarRest (s : List UInt8) : Option (List UInt8) :=
  if text "true" <+: s ∨ text "null" <+: s then some (s.drop 4)
  else if text "false" <+: s then some (s.drop 5)
  else unsignedRest (if s.head? = some minus then s.tail else s)

theorem unsigned_eq (r : List UInt8) :
    (if r = [] then Except.ok none
      else do
        let c ← peek r
        if c = zero then Except.ok (numberTail r.tail)
        else Except.ok ((someDigits r).bind numberTail) :
      C (Option (List UInt8))) = .ok (unsignedRest r) := by
  cases r with
  | nil => rfl
  | cons d r =>
      simp only [reduceCtorEq, if_false, peek_cons, C.ok_bind, unsignedRest,
        List.head?_cons, Option.some.injEq, List.tail_cons]
      split
      · rfl
      · rfl

theorem nawamJsonScalar_eq {s : List UInt8} (hs : s ≠ []) :
    nawamJsonScalar s = .ok (scalarRest s) := by
  obtain ⟨c, s, rfl⟩ := List.exists_cons_of_ne_nil hs
  unfold nawamJsonScalar scalarRest
  simp only [startsWith_eq, C.ok_bind, C.pure_eq, Bool.or_eq_true,
    decide_eq_true_eq, peek_cons, List.tail_cons, List.head?_cons,
    Option.some.injEq]
  split
  · rfl
  · split
    · rfl
    · exact unsigned_eq _

theorem scalarRest_sound {s t : List UInt8} (h : scalarRest s = some t) :
    ∃ v x, s = x ++ t ∧ Value v x ∧ v.depth = 0 := by
  unfold scalarRest at h
  split at h
  · rename_i hword
    rcases hword with ⟨r, rfl⟩ | ⟨r, rfl⟩
    · exact ⟨.bool true, _, by rw [← Option.some.inj h]; rfl, .true, rfl⟩
    · exact ⟨.null, _, by rw [← Option.some.inj h]; rfl, .null, rfl⟩
  · split at h
    · rename_i hword
      obtain ⟨r, rfl⟩ := hword
      exact ⟨.bool false, _, by rw [← Option.some.inj h]; rfl, .false, rfl⟩
    · obtain ⟨int, hint, r, hr, frac, exp, hf, he, rfl⟩ := unsignedRest_sound h
      obtain ⟨sign, hsign, rfl⟩ : ∃ sign, (sign = [] ∨ sign = [minus]) ∧
          s = sign ++ (int ++ (frac ++ (exp ++ t))) := by
        split at hr
        · rename_i hminus
          obtain ⟨r', rfl⟩ := List.head?_eq_some_iff.mp hminus
          exact ⟨[minus], by simp, congrArg (minus :: ·) hr⟩
        · exact ⟨[], by simp, hr⟩
      exact ⟨.number _, sign ++ (int ++ (frac ++ exp)), by simp,
        .number ⟨sign, int, frac, exp, hsign, hint, hf, he, rfl⟩, rfl⟩

theorem number_head {n : List UInt8} (h : Number n) :
    ∃ c r, n = c :: r ∧ (c = minus ∨ isDigit c = true) := by
  obtain ⟨sign, int, frac, exp, hsign, hint, -, -, rfl⟩ := h
  rcases hsign with rfl | rfl
  · rcases hint with rfl | ⟨⟨hne, hall⟩, -⟩
    · exact ⟨zero, _, rfl, Or.inr (by decide)⟩
    · obtain ⟨d, ds, rfl⟩ := List.exists_cons_of_ne_nil hne
      exact ⟨d, _, rfl, Or.inr (hall d List.mem_cons_self)⟩
  · exact ⟨minus, _, rfl, Or.inl rfl⟩

theorem scalarRest_number {n t : List UInt8} (hn : Number n) (ht : Follow t) :
    scalarRest (n ++ t) = some t := by
  obtain ⟨c, r, hcr, hc⟩ := number_head hn
  have hword : ∀ (d : UInt8) (word : List UInt8), isDigit d = false →
      d ≠ minus → ¬ (d :: word) <+: n ++ t := by
    intro d word hd hm hpre
    rw [hcr, List.cons_append, List.cons_prefix_cons] at hpre
    rcases hc with hc | hc
    · exact hm (hpre.1.trans hc)
    · rw [hpre.1, hc] at hd
      exact absurd hd (by simp)
  have hfalse : ¬ text "false" <+: n ++ t :=
    hword 102 _ (by decide) (by decide)
  unfold scalarRest
  rw [if_neg, if_neg hfalse]
  · obtain ⟨sign, int, frac, exp, hsign, hint, hf, he, rfl⟩ := hn
    have hrest := unsignedRest_complete hint hf he ht
    simp only [List.append_assoc]
    rcases hsign with rfl | rfl
    · rw [List.nil_append, if_neg]
      · exact hrest
      -- the integer part does not start with a minus
      · intro hminus
        rcases hint with rfl | ⟨⟨hne, hall⟩, -⟩
        · simp at hminus
        · obtain ⟨d, ds, rfl⟩ := List.exists_cons_of_ne_nil hne
          have hd := hall d List.mem_cons_self
          rw [Option.some.inj hminus] at hd
          exact absurd hd (by decide)
    · exact hrest
  · rintro (h | h)
    · exact hword 116 _ (by decide) (by decide) h
    · exact hword 110 _ (by decide) (by decide) h

def isValueHead (c : UInt8) : Bool :=
  c = quote || c = lbrace || c = lbracket || c = minus || isDigit c ||
    c = 110 || c = 116 || c = 102

theorem value_head : ∀ {v : Json} {x : List UInt8}, Value v x →
    ∃ c r, x = c :: r ∧ isValueHead c = true
  | _, _, .null => ⟨_, _, rfl, by decide⟩
  | _, _, .true => ⟨_, _, rfl, by decide⟩
  | _, _, .false => ⟨_, _, rfl, by decide⟩
  | _, _, .number hn => by
      obtain ⟨c, r, rfl, hc⟩ := number_head hn
      refine ⟨c, r, rfl, ?_⟩
      rcases hc with rfl | hc
      · decide
      · simp [isValueHead, hc]
  | _, _, .string _ => ⟨_, _, rfl, by decide⟩
  | _, _, .emptyArray _ => ⟨_, _, rfl, by decide⟩
  | _, _, .array _ => ⟨_, _, rfl, by decide⟩
  | _, _, .emptyObject _ => ⟨_, _, rfl, by decide⟩
  | _, _, .object _ => ⟨_, _, rfl, by decide⟩

theorem isValueHead_facts (c : UInt8) : isValueHead c = true →
    isJsonSpace c = false ∧ c ≠ rbracket ∧ c ≠ rbrace :=
  forall_byte (p := fun c => isValueHead c = true →
    isJsonSpace c = false ∧ c ≠ rbracket ∧ c ≠ rbrace) (by decide +kernel) c

/-! ## Containers -/

theorem Ws.append {w w' : List UInt8} (h : Ws w) (h' : Ws w') :
    Ws (w ++ w') := by
  intro c hc
  rcases List.mem_append.mp hc with hc | hc
  · exact h c hc
  · exact h' c hc

/-- What stands before the value of an item: nothing in an array, the name
and the colon in an object. -/
def Label (close : UInt8) (n : List UInt8) : Prop :=
  (close = rbracket ∧ n = []) ∨
    (close = rbrace ∧ ∃ k w, Chars k ∧ Ws w ∧
      n = quote :: (k ++ quote :: (w ++ [colon])))

/-- The items up to the closing bracket of a container at `depth`, within the
nesting limit. -/
def Body (close : UInt8) (depth : ℕ) (x : List UInt8) : Prop :=
  (close = rbracket ∧ ∃ vs, Elements vs x ∧ depth + depthItems vs ≤ 32) ∨
    (close = rbrace ∧ ∃ ms, Members ms x ∧ depth + depthMembers ms ≤ 32)

theorem memberName_spec (s : List UInt8) :
    ∃ r, memberName s = .ok r ∧ ∀ t, r = some t ↔
      ∃ k w, Chars k ∧ Ws w ∧
        s = quote :: (k ++ quote :: (w ++ colon :: t)) := by
  obtain ⟨r, hrun, hspec⟩ := nawamJsonString_spec s
  unfold memberName
  rw [hrun]
  cases r with
  | none =>
      refine ⟨none, rfl, ?_⟩
      intro t
      simp only [reduceCtorEq, false_iff]
      rintro ⟨k, w, hk, -, heq⟩
      exact absurd ((hspec _).mpr ⟨k, hk, heq⟩) (by simp)
  | some s₁ =>
      obtain ⟨k, hk, rfl⟩ := (hspec s₁).mp rfl
      obtain ⟨w, hw, hs₁⟩ := exists_ws s₁
      -- the name and the white space behind it are determined
      have hunique : ∀ t, (∃ k' w', Chars k' ∧ Ws w' ∧
          quote :: (k ++ quote :: s₁)
            = quote :: (k' ++ quote :: (w' ++ colon :: t))) ↔
          nawamJsonSpace s₁ = colon :: t := by
        intro t
        constructor
        · rintro ⟨k', w', hk', hw', heq⟩
          have hrest := (hspec _).mpr ⟨k', hk', heq⟩
          rw [Option.some.inj hrest, nawamJsonSpace_append hw',
            nawamJsonSpace_cons (by decide)]
        · intro hcolon
          rw [hcolon] at hs₁
          exact ⟨k, w, hk, hw, by rw [hs₁]⟩
      simp only [C.ok_bind]
      generalize nawamJsonSpace s₁ = s₂ at hunique
      cases s₂ with
      | nil =>
          refine ⟨none, rfl, ?_⟩
          intro t
          rw [hunique]
          simp
      | cons c s₂ =>
          by_cases hc : c = colon
          · refine ⟨some s₂, by simp [hc], ?_⟩
            intro t
            rw [hunique, hc]
            simp
          · refine ⟨none, by simp [hc], ?_⟩
            intro t
            rw [hunique]
            simp [hc]

/-- The first step of an iteration of the container loop. -/
theorem label_spec {close : UInt8} (hclose : close = rbracket ∨ close = rbrace)
    (s : List UInt8) :
    ∃ r, (if close = rbrace then memberName s else return some s) = Except.ok r ∧
      ∀ t, r = some t ↔ ∃ n, Label close n ∧ s = n ++ t := by
  rcases hclose with rfl | rfl
  · refine ⟨some s, rfl, ?_⟩
    intro t
    simp [Label]
  · obtain ⟨r, hrun, hspec⟩ := memberName_spec s
    refine ⟨r, by rw [if_pos rfl, hrun], ?_⟩
    intro t
    rw [hspec]
    constructor
    · rintro ⟨k, w, hk, hw, rfl⟩
      exact ⟨_, Or.inr ⟨rfl, k, w, hk, hw, rfl⟩, by simp⟩
    · rintro ⟨n, hn, rfl⟩
      rcases hn with ⟨hne, -⟩ | ⟨-, k, w, hk, hw, rfl⟩
      · exact absurd hne (by decide)
      · exact ⟨k, w, hk, hw, by simp⟩

section Bodies

variable {close : UInt8} {depth : ℕ} {n w w' x r : List UInt8} {v : Json}

theorem body_last (hn : Label close n) (hw : Ws w) (hv : Value v x)
    (hw' : Ws w') (hdepth : depth + 1 + v.depth ≤ 32) :
    Body close depth (n ++ (w ++ (x ++ w'))) := by
  rcases hn with ⟨rfl, rfl⟩ | ⟨rfl, k, w₁, hk, hw₁, rfl⟩
  · rw [List.nil_append]
    refine Or.inl ⟨rfl, [v], .last hw hv hw', ?_⟩
    simp only [depthItems]
    omega
  · refine Or.inr ⟨rfl, [(k, v)], ?_, ?_⟩
    · have := Members.last Ws.nil hk hw₁ hw hv hw'
      simpa using this
    · simp only [depthMembers]
      omega

theorem body_cons (hn : Label close n) (hw : Ws w) (hv : Value v x)
    (hw' : Ws w') (hdepth : depth + 1 + v.depth ≤ 32)
    (hr : Body close depth r) :
    Body close depth (n ++ (w ++ (x ++ (w' ++ comma :: r)))) := by
  rcases hn with ⟨rfl, rfl⟩ | ⟨rfl, k, w₁, hk, hw₁, rfl⟩
  · rcases hr with ⟨-, vs, hvs, hd⟩ | ⟨hne, -⟩
    · rw [List.nil_append]
      refine Or.inl ⟨rfl, v :: vs, .cons hw hv hw' hvs, ?_⟩
      simp only [depthItems]
      omega
    · exact absurd hne (by decide)
  · rcases hr with ⟨hne, -⟩ | ⟨-, ms, hms, hd⟩
    · exact absurd hne (by decide)
    · refine Or.inr ⟨rfl, (k, v) :: ms, ?_, ?_⟩
      · have := Members.cons Ws.nil hk hw₁ hw hv hw' hms
        simpa using this
      · simp only [depthMembers]
        omega

theorem elements_ws {vs : List Json} (hw : Ws w) (h : Elements vs x) :
    Elements vs (w ++ x) := by
  cases h with
  | last hw₀ hv hw' =>
      have := Elements.last (hw.append hw₀) hv hw'
      rwa [List.append_assoc] at this
  | cons hw₀ hv hw' hr =>
      have := Elements.cons (hw.append hw₀) hv hw' hr
      rwa [List.append_assoc] at this

theorem members_ws {ms : List (List UInt8 × Json)} (hw : Ws w)
    (h : Members ms x) : Members ms (w ++ x) := by
  cases h with
  | last hw₀ hk hw₁ hw₂ hv hw' =>
      have := Members.last (hw.append hw₀) hk hw₁ hw₂ hv hw'
      rwa [List.append_assoc] at this
  | cons hw₀ hk hw₁ hw₂ hv hw' hr =>
      have := Members.cons (hw.append hw₀) hk hw₁ hw₂ hv hw' hr
      rwa [List.append_assoc] at this

theorem body_ws (hw : Ws w) (h : Body close depth x) :
    Body close depth (w ++ x) := by
  rcases h with ⟨rfl, vs, hvs, hd⟩ | ⟨rfl, ms, hms, hd⟩
  · exact Or.inl ⟨rfl, vs, elements_ws hw hvs, hd⟩
  · exact Or.inr ⟨rfl, ms, members_ws hw hms, hd⟩

end Bodies

/-! ## Soundness -/

/-- With this fuel the walker returns, and what it consumed is a value within
the nesting limit. -/
def ValueSound (fuel : ℕ) : Prop :=
  ∀ depth s, 2 * s.length + 1 ≤ fuel →
    ∃ r, nawamJsonValue fuel depth s = .ok r ∧ ∀ t, r = some t →
      ∃ w x v, s = w ++ (x ++ t) ∧ Ws w ∧ Value v x ∧ depth + v.depth ≤ 32

/-- The same for the loop inside a container. -/
def LoopSound (fuel : ℕ) : Prop :=
  ∀ depth close s, (close = rbracket ∨ close = rbrace) →
    2 * s.length + 2 ≤ fuel →
    ∃ r, containerLoop fuel depth close s = .ok r ∧ ∀ t, r = some t →
      ∃ x, s = x ++ close :: t ∧ Body close depth x

theorem nawamJsonValue_deep {depth : ℕ} (h : 32 < depth) (fuel : ℕ)
    (s : List UInt8) : nawamJsonValue (fuel + 1) depth s = .ok none := by
  rw [nawamJsonValue, if_pos h]
  rfl

theorem nawamJsonValue_nil {s : List UInt8} (h : nawamJsonSpace s = [])
    (fuel depth : ℕ) : nawamJsonValue (fuel + 1) depth s = .ok none := by
  rw [nawamJsonValue]
  simp only [h]
  split
  · rfl
  · rfl

/-- The bracket that closes the one a container starts with. -/
def closing (c : UInt8) : UInt8 := if c = lbrace then rbrace else rbracket

/-- The dispatch on the first byte of a value. -/
theorem nawamJsonValue_cons {depth : ℕ} (hdepth : depth ≤ 32) (fuel : ℕ)
    {s s₁ : List UInt8} {c : UInt8} (hs : nawamJsonSpace s = c :: s₁) :
    nawamJsonValue (fuel + 1) depth s =
      if c = quote then nawamJsonString (c :: s₁)
      else if c = lbrace ∨ c = lbracket then
        if (nawamJsonSpace s₁).head? = some (closing c) then
          .ok (some (nawamJsonSpace s₁).tail)
        else containerLoop fuel depth (closing c) (nawamJsonSpace s₁)
      else nawamJsonScalar (c :: s₁) := by
  rw [nawamJsonValue, if_neg (Nat.not_lt.mpr hdepth)]
  simp only [hs]
  rfl

theorem valueSound_succ {fuel : ℕ} (hloop : LoopSound fuel) :
    ValueSound (fuel + 1) := by
  intro depth s hfuel
  by_cases hdepth : 32 < depth
  · exact ⟨none, nawamJsonValue_deep hdepth fuel s, by simp⟩
  obtain ⟨w, hw, hs⟩ := exists_ws s
  have hlen := congrArg List.length hs
  cases hsp : nawamJsonSpace s with
  | nil => exact ⟨none, nawamJsonValue_nil hsp fuel depth, by simp⟩
  | cons c s₁ =>
      rw [hsp] at hs hlen
      rw [List.length_append, List.length_cons] at hlen
      rw [nawamJsonValue_cons (by omega) fuel hsp]
      by_cases hq : c = quote
      · rw [if_pos hq]
        obtain ⟨r, hrun, hspec⟩ := nawamJsonString_spec (c :: s₁)
        refine ⟨r, hrun, ?_⟩
        intro t ht
        obtain ⟨cs, hcs, heq⟩ := (hspec t).mp ht
        refine ⟨w, _, .string cs, ?_, hw, .string hcs, ?_⟩
        · rw [hs, heq]
          simp
        · simp only [Json.depth]
          omega
      rw [if_neg hq]
      by_cases hbracket : c = lbrace ∨ c = lbracket
      · rw [if_pos hbracket]
        obtain ⟨w₂, hw₂, hs₁⟩ := exists_ws s₁
        have hle := nawamJsonSpace_length_le s₁
        generalize hcl : closing c = close
        have hcases : (c = lbracket ∧ close = rbracket) ∨
            (c = lbrace ∧ close = rbrace) := by
          rcases hbracket with rfl | rfl
          · exact Or.inr ⟨rfl, hcl.symm⟩
          · exact Or.inl ⟨rfl, hcl.symm⟩
        by_cases hempty : (nawamJsonSpace s₁).head? = some close
        · rw [if_pos hempty]
          obtain ⟨t, hs₂⟩ := List.head?_eq_some_iff.mp hempty
          refine ⟨some t, by rw [hs₂]; rfl, ?_⟩
          intro t' ht'
          rw [← Option.some.inj ht', hs, hs₁, hs₂]
          rcases hcases with ⟨rfl, rfl⟩ | ⟨rfl, rfl⟩
          · refine ⟨w, _, .array [], ?_, hw, .emptyArray hw₂, ?_⟩
            · simp
            · simp only [Json.depth, depthItems]
              omega
          · refine ⟨w, _, .object [], ?_, hw, .emptyObject hw₂, ?_⟩
            · simp
            · simp only [Json.depth, depthMembers]
              omega
        · rw [if_neg hempty]
          obtain ⟨r, hrun, hspec⟩ := hloop depth close (nawamJsonSpace s₁)
            (hcases.imp And.right And.right) (by omega)
          refine ⟨r, hrun, ?_⟩
          intro t ht
          obtain ⟨x, hx, hbody⟩ := hspec t ht
          rw [hs, hs₁, hx]
          rcases body_ws hw₂ hbody with ⟨rfl, vs, hvs, hd⟩ | ⟨rfl, ms, hms, hd⟩
          · rcases hcases with ⟨rfl, -⟩ | ⟨-, hne⟩
            · exact ⟨w, _, .array vs, by simp, hw, .array hvs, hd⟩
            · exact absurd hne (by decide)
          · rcases hcases with ⟨-, hne⟩ | ⟨rfl, -⟩
            · exact absurd hne (by decide)
            · exact ⟨w, _, .object ms, by simp, hw, .object hms, hd⟩
      · rw [if_neg hbracket, nawamJsonScalar_eq (by simp)]
        refine ⟨_, rfl, ?_⟩
        intro t ht
        obtain ⟨v, x, heq, hv, hd⟩ := scalarRest_sound ht
        exact ⟨w, x, v, by rw [hs, heq], hw, hv, by omega⟩

theorem loopSound_succ {fuel : ℕ} (hvalue : ValueSound fuel)
    (hloop : LoopSound fuel) : LoopSound (fuel + 1) := by
  intro depth close s hclose hfuel
  obtain ⟨r, hlabel, hspec⟩ := label_spec hclose s
  rw [containerLoop, hlabel, C.ok_bind]
  cases r with
  | none => exact ⟨none, rfl, by simp⟩
  | some s₁ =>
      obtain ⟨n, hn, rfl⟩ := (hspec s₁).mp rfl
      rw [List.length_append] at hfuel
      obtain ⟨r, hrun, hsound⟩ := hvalue (depth + 1) s₁ (by omega)
      simp only [hrun, C.ok_bind]
      cases r with
      | none => exact ⟨none, rfl, by simp⟩
      | some s₂ =>
          obtain ⟨w, x, v, rfl, hw, hv, hd⟩ := hsound s₂ rfl
          obtain ⟨w', hw', hs₂⟩ := exists_ws s₂
          have hlen := congrArg List.length hs₂
          rw [List.length_append] at hlen
          simp only [List.length_append] at hfuel
          simp only
          generalize nawamJsonSpace s₂ = s₃ at hs₂ hlen
          subst hs₂
          cases s₃ with
          | nil => exact ⟨none, rfl, by simp⟩
          | cons c s₃ =>
              simp only [reduceCtorEq, if_false, peek_cons, C.ok_bind,
                List.tail_cons]
              rw [List.length_cons] at hlen
              by_cases hc : c = close
              · subst hc
                refine ⟨some s₃, by simp, ?_⟩
                intro t ht
                rw [← Option.some.inj ht]
                exact ⟨n ++ (w ++ (x ++ w')), by simp,
                  body_last hn hw hv hw' hd⟩
              · rw [if_neg hc]
                by_cases hcomma : c = comma
                · subst hcomma
                  obtain ⟨w₄, hw₄, hs₃⟩ := exists_ws s₃
                  have hle := nawamJsonSpace_length_le s₃
                  obtain ⟨r, hrun', hrest⟩ := hloop depth close
                    (nawamJsonSpace s₃) hclose (by omega)
                  refine ⟨r, by simpa using hrun', ?_⟩
                  intro t ht
                  obtain ⟨y, hy, hbody⟩ := hrest t ht
                  refine ⟨n ++ (w ++ (x ++ (w' ++ comma :: (w₄ ++ y)))), ?_,
                    body_cons hn hw hv hw' hd (body_ws hw₄ hbody)⟩
                  rw [hs₃, hy]
                  simp
                · exact ⟨none, by simp [hcomma], by simp⟩

/-- **The walker returns on every text, and what it accepts is a value.** -/
theorem walker_sound : ∀ fuel, ValueSound fuel ∧ LoopSound fuel := by
  intro fuel
  induction fuel with
  | zero =>
      constructor
      · intro depth s hfuel
        exact absurd hfuel (by omega)
      · intro depth close s _ hfuel
        exact absurd hfuel (by omega)
  | succ fuel ih =>
      exact ⟨valueSound_succ ih.2, loopSound_succ ih.1 ih.2⟩

/-! ## Completeness -/

/-- White space and then a separator cannot continue a number. -/
theorem follow_ws {w : List UInt8} (hw : Ws w) {c : UInt8} (r : List UInt8)
    (hc : isDigit c = false ∧ c ≠ dot ∧ c ≠ 101 ∧ c ≠ 69) :
    Follow (w ++ c :: r) := by
  intro d hd
  cases w with
  | nil =>
      simp only [List.nil_append, List.head?_cons, Option.mem_some_iff] at hd
      exact hd ▸ hc
  | cons e w =>
      simp only [List.cons_append, List.head?_cons, Option.mem_some_iff] at hd
      have hspace : isJsonSpace d = true := hd ▸ hw e List.mem_cons_self
      exact forall_byte (p := fun d => isJsonSpace d = true →
        isDigit d = false ∧ d ≠ dot ∧ d ≠ 101 ∧ d ≠ 69) (by decide +kernel) d
        hspace

theorem follow_ws_end {w : List UInt8} (hw : Ws w) : Follow w := by
  cases w with
  | nil =>
      intro c hc
      simp at hc
  | cons c w =>
      have hspace := hw c List.mem_cons_self
      refine follow_ws (w := []) Ws.nil w ?_
      exact forall_byte (p := fun d => isJsonSpace d = true →
        isDigit d = false ∧ d ≠ dot ∧ d ≠ 101 ∧ d ≠ 69) (by decide +kernel) c
        hspace

theorem nawamJsonSpace_value {w x : List UInt8} {v : Json} (hw : Ws w)
    (hv : Value v x) (t : List UInt8) :
    nawamJsonSpace (w ++ (x ++ t)) = x ++ t := by
  obtain ⟨c, r, rfl, hc⟩ := value_head hv
  rw [nawamJsonSpace_append hw]
  exact nawamJsonSpace_cons (isValueHead_facts c hc).1 (r ++ t)

section OneItem

variable {close : UInt8} {depth fuel : ℕ} {n s w' : List UInt8}

theorem Label.close_eq (h : Label close n) :
    close = rbracket ∨ close = rbrace :=
  h.imp And.left And.left

/-- An iteration of the container loop whose value ends before `w' ++ c :: r`. -/
theorem containerLoop_item (hn : Label close n) (hw' : Ws w') {c : UInt8}
    (hc : isJsonSpace c = false) (r : List UInt8)
    (hrun : nawamJsonValue fuel (depth + 1) s = .ok (some (w' ++ c :: r))) :
    containerLoop (fuel + 1) depth close (n ++ s) =
      if c = close then .ok (some r)
      else if c ≠ comma then .ok none
      else containerLoop fuel depth close (nawamJsonSpace r) := by
  obtain ⟨o, hlabel, hspec⟩ := label_spec hn.close_eq (n ++ s)
  have ho := (hspec s).mpr ⟨n, hn, rfl⟩
  subst ho
  have hspace : nawamJsonSpace (w' ++ c :: r) = c :: r := by
    rw [nawamJsonSpace_append hw', nawamJsonSpace_cons hc]
  rw [containerLoop, hlabel, C.ok_bind]
  simp only [hrun, C.ok_bind, hspace]
  rfl

theorem containerLoop_last (hn : Label close n) (hw' : Ws w') (r : List UInt8)
    (hrun : nawamJsonValue fuel (depth + 1) s = .ok (some (w' ++ close :: r))) :
    containerLoop (fuel + 1) depth close (n ++ s) = .ok (some r) := by
  have hc : isJsonSpace close = false := by
    rcases hn.close_eq with rfl | rfl
    · decide
    · decide
  rw [containerLoop_item hn hw' hc r hrun, if_pos rfl]

theorem containerLoop_comma (hn : Label close n) (hw' : Ws w') (r : List UInt8)
    (hrun : nawamJsonValue fuel (depth + 1) s = .ok (some (w' ++ comma :: r))) :
    containerLoop (fuel + 1) depth close (n ++ s)
      = containerLoop fuel depth close (nawamJsonSpace r) := by
  have hc : comma ≠ close := by
    rcases hn.close_eq with rfl | rfl
    · decide
    · decide
  rw [containerLoop_item hn hw' (by decide) r hrun, if_neg hc, if_neg (by simp)]

end OneItem

/-- What the walker does in front of the name of a member. -/
theorem nawamJsonSpace_quote {w : List UInt8} (hw : Ws w) (s : List UInt8) :
    nawamJsonSpace (w ++ quote :: s) = quote :: s := by
  rw [nawamJsonSpace_append hw, nawamJsonSpace_cons (by decide)]

theorem nawamJsonScalar_word (word t : List UInt8) (hne : word ≠ [])
    (h : scalarRest (word ++ t) = some t) :
    nawamJsonScalar (word ++ t) = .ok (some t) := by
  rw [nawamJsonScalar_eq (by simp [hne]), h]

theorem nawamJsonString_complete {cs : List UInt8} (h : Chars cs)
    (t : List UInt8) :
    nawamJsonString (quote :: (cs ++ quote :: t)) = .ok (some t) := by
  obtain ⟨r, hrun, hspec⟩ := nawamJsonString_spec
    (quote :: (cs ++ quote :: t))
  rw [(hspec t).mpr ⟨cs, h, rfl⟩] at hrun
  exact hrun

section Containers

variable {c : UInt8} {depth : ℕ} {w : List UInt8}

theorem nawamJsonValue_container (hc : c = lbracket ∨ c = lbrace) (hw : Ws w)
    (hdepth : depth ≤ 32) (fuel : ℕ) (s : List UInt8) :
    nawamJsonValue (fuel + 1) depth (w ++ c :: s) =
      if (nawamJsonSpace s).head? = some (closing c) then
        .ok (some (nawamJsonSpace s).tail)
      else containerLoop fuel depth (closing c) (nawamJsonSpace s) := by
  have hfirst : nawamJsonSpace (w ++ c :: s) = c :: s := by
    rw [nawamJsonSpace_append hw, nawamJsonSpace_cons]
    rcases hc with rfl | rfl
    · decide
    · decide
  have hquote : c ≠ quote := by
    rcases hc with rfl | rfl
    · decide
    · decide
  rw [nawamJsonValue_cons hdepth fuel hfirst, if_neg hquote, if_pos hc.symm]

theorem nawamJsonValue_empty (hc : c = lbracket ∨ c = lbrace) (hw : Ws w)
    (hdepth : depth ≤ 32) (fuel : ℕ) {w₁ : List UInt8} (hw₁ : Ws w₁)
    (t : List UInt8) :
    nawamJsonValue (fuel + 1) depth (w ++ c :: (w₁ ++ closing c :: t))
      = .ok (some t) := by
  have hspace : nawamJsonSpace (w₁ ++ closing c :: t) = closing c :: t := by
    rw [nawamJsonSpace_append hw₁, nawamJsonSpace_cons]
    rcases hc with rfl | rfl
    · decide
    · decide
  rw [nawamJsonValue_container hc hw hdepth, hspace, List.head?_cons,
    if_pos rfl, List.tail_cons]

/-- A container whose first item starts with `d`. -/
theorem nawamJsonValue_items (hc : c = lbracket ∨ c = lbrace) (hw : Ws w)
    (hdepth : depth ≤ 32) (fuel : ℕ) {s r : List UInt8} {d : UInt8}
    (hs : nawamJsonSpace s = d :: r) (hd : isValueHead d = true) :
    nawamJsonValue (fuel + 1) depth (w ++ c :: s)
      = containerLoop fuel depth (closing c) (nawamJsonSpace s) := by
  obtain ⟨-, hbracket, hbrace⟩ := isValueHead_facts d hd
  rw [nawamJsonValue_container hc hw hdepth, if_neg]
  rw [hs, List.head?_cons, Option.some.injEq]
  rcases hc with rfl | rfl
  · exact hbracket
  · exact hbrace

end Containers

theorem elements_head {vs : List Json} {x : List UInt8} (h : Elements vs x)
    (t : List UInt8) :
    ∃ c r, nawamJsonSpace (x ++ t) = c :: r ∧ isValueHead c = true := by
  cases h with
  | last hw hv hw' =>
      obtain ⟨c, r, rfl, hc⟩ := value_head hv
      simp only [List.append_assoc]
      exact ⟨c, _, nawamJsonSpace_value hw hv _, hc⟩
  | cons hw hv hw' _ =>
      obtain ⟨c, r, rfl, hc⟩ := value_head hv
      simp only [List.append_assoc]
      exact ⟨c, _, nawamJsonSpace_value hw hv _, hc⟩

theorem members_head {ms : List (List UInt8 × Json)} {x : List UInt8}
    (h : Members ms x) (t : List UInt8) :
    ∃ r, nawamJsonSpace (x ++ t) = quote :: r := by
  cases h with
  | last hw _ _ _ _ _ =>
      rw [List.append_assoc]
      exact ⟨_, nawamJsonSpace_quote hw _⟩
  | cons hw _ _ _ _ _ _ =>
      rw [List.append_assoc]
      exact ⟨_, nawamJsonSpace_quote hw _⟩

theorem label_array : Label rbracket [] := Or.inl ⟨rfl, rfl⟩

theorem label_object {k w : List UInt8} (hk : Chars k) (hw : Ws w) :
    Label rbrace (quote :: (k ++ quote :: (w ++ [colon]))) :=
  Or.inr ⟨rfl, k, w, hk, hw, rfl⟩

mutual

/-- **What the grammar derives, the walker consumes**, if what follows
cannot continue a number. -/
theorem value_complete : ∀ {v : Json} {x : List UInt8}, Value v x →
    ∀ (w t : List UInt8) (fuel depth : ℕ), Ws w → Follow t →
      depth + v.depth ≤ 32 → 2 * (w ++ (x ++ t)).length + 1 ≤ fuel →
      nawamJsonValue fuel depth (w ++ (x ++ t)) = .ok (some t)
  | _, _, hv, w, t, 0, depth, _, _, _, hfuel => absurd hfuel (by omega)
  | _, _, .null, w, t, fuel + 1, depth, hw, ht, hd, hfuel => by
      rw [nawamJsonValue_cons (by omega) fuel
        (nawamJsonSpace_value hw .null t)]
      exact nawamJsonScalar_word (text "null") t (by decide) rfl
  | _, _, .true, w, t, fuel + 1, depth, hw, ht, hd, hfuel => by
      rw [nawamJsonValue_cons (by omega) fuel
        (nawamJsonSpace_value hw .true t)]
      exact nawamJsonScalar_word (text "true") t (by decide) rfl
  | _, _, .false, w, t, fuel + 1, depth, hw, ht, hd, hfuel => by
      rw [nawamJsonValue_cons (by omega) fuel
        (nawamJsonSpace_value hw .false t)]
      exact nawamJsonScalar_word (text "false") t (by decide) rfl
  | _, n, .number hn, w, t, fuel + 1, depth, hw, ht, hd, hfuel => by
      obtain ⟨c, r, rfl, hc⟩ := number_head hn
      have hother : c ≠ quote ∧ ¬ (c = lbrace ∨ c = lbracket) := by
        rcases hc with rfl | hc
        · decide
        · exact forall_byte (p := fun c => isDigit c = true →
            c ≠ quote ∧ ¬ (c = lbrace ∨ c = lbracket)) (by decide +kernel) c
            hc
      rw [nawamJsonValue_cons (by omega) fuel
        (nawamJsonSpace_value hw (.number hn) t), if_neg hother.1,
        if_neg hother.2]
      exact nawamJsonScalar_word (c :: r) t (by simp)
        (scalarRest_number hn ht)
  | _, _, @Value.string cs hcs, w, t, fuel + 1, depth, hw, ht, hd,
      hfuel => by
      have hrun := nawamJsonString_complete hcs t
      rw [nawamJsonValue_cons (by omega) fuel
        (nawamJsonSpace_value hw (.string hcs) t), if_pos rfl, ← hrun]
      exact congrArg nawamJsonString (by simp)
  | _, _, @Value.emptyArray w₁ hw₁, w, t, fuel + 1, depth, hw, ht, hd,
      hfuel => by
      have hdepth : depth ≤ 32 := by omega
      rw [← nawamJsonValue_empty (Or.inl rfl) hw hdepth fuel hw₁ t]
      exact congrArg _ (by simp [closing])
  | _, _, @Value.array vs s hvs, w, t, fuel + 1, depth, hw, ht, hd,
      hfuel => by
      have heq : w ++ (lbracket :: (s ++ [rbracket]) ++ t)
          = w ++ lbracket :: (s ++ rbracket :: t) := by simp
      rw [heq] at hfuel ⊢
      simp only [Json.depth] at hd
      simp only [List.length_append, List.length_cons] at hfuel
      obtain ⟨c, r, hc, hhead⟩ := elements_head hvs (rbracket :: t)
      rw [nawamJsonValue_items (Or.inl rfl) hw (by omega) fuel hc hhead]
      apply elements_complete hvs t fuel depth hd
      simp only [List.length_append, List.length_cons]
      omega
  | _, _, @Value.emptyObject w₁ hw₁, w, t, fuel + 1, depth, hw, ht, hd,
      hfuel => by
      have hdepth : depth ≤ 32 := by omega
      rw [← nawamJsonValue_empty (Or.inr rfl) hw hdepth fuel hw₁ t]
      exact congrArg _ (by simp [closing])
  | _, _, @Value.object ms s hms, w, t, fuel + 1, depth, hw, ht, hd,
      hfuel => by
      have heq : w ++ (lbrace :: (s ++ [rbrace]) ++ t)
          = w ++ lbrace :: (s ++ rbrace :: t) := by simp
      rw [heq] at hfuel ⊢
      simp only [Json.depth] at hd
      simp only [List.length_append, List.length_cons] at hfuel
      obtain ⟨r, hc⟩ := members_head hms (rbrace :: t)
      rw [nawamJsonValue_items (Or.inr rfl) hw (by omega) fuel hc (by decide)]
      apply members_complete hms t fuel depth hd
      simp only [List.length_append, List.length_cons]
      omega

theorem elements_complete : ∀ {vs : List Json} {x : List UInt8},
    Elements vs x → ∀ (t : List UInt8) (fuel depth : ℕ),
      depth + depthItems vs ≤ 32 →
      2 * (x ++ rbracket :: t).length + 2 ≤ fuel →
      containerLoop fuel depth rbracket
        (nawamJsonSpace (x ++ rbracket :: t)) = .ok (some t)
  | _, _, h, t, 0, depth, _, hfuel => absurd hfuel (by omega)
  | _, _, @Elements.last w w' s v hw hv hw', t, fuel + 1, depth,
      hd, hfuel => by
      simp only [depthItems] at hd
      simp only [List.append_assoc, List.length_append,
        List.length_cons] at hfuel ⊢
      have hrun := value_complete hv [] (w' ++ rbracket :: t) fuel (depth + 1)
        Ws.nil (follow_ws hw' t (by decide)) (by omega)
        (by simp only [List.length_append, List.length_cons,
              List.length_nil]; omega)
      rw [nawamJsonSpace_value hw hv]
      exact containerLoop_last label_array hw' t hrun
  | _, _, @Elements.cons w w' s r v vs hw hv hw' hvs, t,
      fuel + 1, depth, hd, hfuel => by
      simp only [depthItems] at hd
      simp only [List.append_assoc, List.cons_append, List.length_append,
        List.length_cons] at hfuel ⊢
      have hrun := value_complete hv [] (w' ++ comma :: (r ++ rbracket :: t))
        fuel (depth + 1) Ws.nil (follow_ws hw' _ (by decide)) (by omega)
        (by simp only [List.length_append, List.length_cons,
              List.length_nil]; omega)
      have hrest := elements_complete hvs t fuel depth (by omega)
        (by simp only [List.length_append, List.length_cons]; omega)
      rw [nawamJsonSpace_value hw hv, ← hrest]
      exact containerLoop_comma label_array hw' _ hrun

theorem members_complete : ∀ {ms : List (List UInt8 × Json)}
    {x : List UInt8}, Members ms x → ∀ (t : List UInt8) (fuel depth : ℕ),
      depth + depthMembers ms ≤ 32 →
      2 * (x ++ rbrace :: t).length + 2 ≤ fuel →
      containerLoop fuel depth rbrace
        (nawamJsonSpace (x ++ rbrace :: t)) = .ok (some t)
  | _, _, h, t, 0, depth, _, hfuel => absurd hfuel (by omega)
  | _, _, @Members.last w w₁ w₂ w' k s v hw hk hw₁ hw₂ hv hw', t, fuel + 1,
      depth, hd, hfuel => by
      simp only [depthMembers] at hd
      simp only [List.append_assoc, List.cons_append, List.length_append,
        List.length_cons] at hfuel ⊢
      have hrun := value_complete hv w₂ (w' ++ rbrace :: t) fuel (depth + 1)
        hw₂ (follow_ws hw' t (by decide)) (by omega)
        (by simp only [List.length_append, List.length_cons]; omega)
      have hitem := containerLoop_last (label_object hk hw₁) hw' t hrun
      rw [nawamJsonSpace_quote hw, ← hitem]
      exact congrArg _ (by simp)
  | _, _, @Members.cons w w₁ w₂ w' k s r v ms hw hk hw₁ hw₂ hv hw' hms, t,
      fuel + 1, depth, hd, hfuel => by
      simp only [depthMembers] at hd
      simp only [List.append_assoc, List.cons_append, List.length_append,
        List.length_cons] at hfuel ⊢
      have hrun := value_complete hv w₂ (w' ++ comma :: (r ++ rbrace :: t))
        fuel (depth + 1) hw₂ (follow_ws hw' _ (by decide)) (by omega)
        (by simp only [List.length_append, List.length_cons]; omega)
      have hrest := members_complete hms t fuel depth (by omega)
        (by simp only [List.length_append, List.length_cons]; omega)
      have hitem := containerLoop_comma (label_object hk hw₁) hw' _ hrun
      rw [nawamJsonSpace_quote hw, ← hrest, ← hitem]
      exact congrArg _ (by simp)

end

/-! ## Whole texts -/

theorem nawamJsonSpace_eq_nil_iff {s : List UInt8} :
    nawamJsonSpace s = [] ↔ Ws s :=
  List.dropWhile_eq_nil_iff

/-- **The walk accepts exactly the JSON texts within the nesting limit**, and
it returns on every text: no read at or behind the end, no endless loop. -/
theorem nawamJsonWalk_spec (s : List UInt8) :
    ∃ b, nawamJsonWalk s = .ok b ∧
      (b = true ↔ ∃ v, JsonText v s ∧ v.depth ≤ 32) := by
  obtain ⟨w, hw, hs⟩ := exists_ws s
  obtain ⟨r, hrun, hsound⟩ := (walker_sound (2 * (nawamJsonSpace s).length + 1)).1
    0 (nawamJsonSpace s) le_rfl
  have hcomplete : ∀ v, JsonText v s → v.depth ≤ 32 →
      ∃ w', Ws w' ∧ r = some w' := by
    rintro v ⟨w₀, x, w', hw₀, hv, hw', rfl⟩ hd
    have hspace := nawamJsonSpace_value hw₀ hv w'
    have hval := value_complete hv [] w' _ 0 Ws.nil (follow_ws_end hw')
      (by omega) (le_refl (2 * ([] ++ (x ++ w')).length + 1))
    rw [List.nil_append, ← hspace, hrun] at hval
    exact ⟨w', hw', Except.ok.inj hval⟩
  rw [nawamJsonWalk]
  simp only [hrun, C.ok_bind]
  cases r with
  | none =>
      refine ⟨false, rfl, ?_⟩
      simp only [Bool.false_eq_true, false_iff]
      rintro ⟨v, htext, hd⟩
      obtain ⟨w', -, hnone⟩ := hcomplete v htext hd
      exact absurd hnone (by simp)
  | some t =>
      refine ⟨_, rfl, ?_⟩
      rw [decide_eq_true_iff, nawamJsonSpace_eq_nil_iff]
      constructor
      · intro ht
        obtain ⟨w₁, x, v, heq, hw₁, hv, hd⟩ := hsound t rfl
        refine ⟨v, ⟨w ++ w₁, x, t, hw.append hw₁, hv, ht, ?_⟩, by omega⟩
        rw [List.append_assoc, ← heq]
        exact hs
      · rintro ⟨v, htext, hd⟩
        obtain ⟨w', hw', hsome⟩ := hcomplete v htext hd
        exact Option.some.inj hsome ▸ hw'

example :
    nawamJsonWalk (text " [1, -0.5e+3, \"\\u00e9\", \x7b\x7d] ")
      = .ok true := by
  decide

end Nawam
