import Nawam.Regex.Pattern

/-!
# The labels of the Red Hat 8 derivatives

When an image is scanned its label is tried against eight patterns, and one that is
found makes it a derivative of Red Hat 8. `redhat8Derivative_iff` says which labels
those are, with no pattern in it.
-/

namespace Nawam.Regex

/-- `redhat8_derivative` -/
def redhat8Patterns : List (List UInt8) :=
  [Ascii.text "^AlmaLinux-[8-9].*",
   Ascii.text "^Fedora.*-3[3-9].*",
   Ascii.text "^CentOS.*-[8-9].*",
   Ascii.text "^Circle.*-[8-9].*",
   Ascii.text "^OL-[8-9].*",
   Ascii.text "^RHEL-[8-9].*",
   Ascii.text "^Rocky-[8-9].*",
   Ascii.text "^MIRACLE-LINUX-[8-9].*"]

/-- The loop of `ImageScanThread` over the patterns, until one is found, or one has no
program -/
def redhat8From (label : List UInt8) : List (List UInt8) → C Bool
  | [] => .ok false
  | pattern :: patterns => do
      match ← cregexRun pattern label maxMatches with
      | none => .ok false
      | some none => redhat8From label patterns
      | some (some (found, _)) => if found then .ok true else redhat8From label patterns

/-- `img_report.rh8_derivative` of a label -/
def redhat8Derivative (label : List UInt8) : C Bool := redhat8From label redhat8Patterns

/-! ## What the patterns say -/

/-- The labels of one system: `front`, then anything if there is a gap, then `back` and
a digit from `low` on. -/
structure Family where
  front : List UInt8
  gap : Bool
  back : List UInt8
  low : UInt8

def Family.Labels (f : Family) (label : List UInt8) : Prop :=
  ∃ gap digit, (f.gap = false → gap = []) ∧ f.low ≤ digit ∧ digit ≤ 57 ∧
    f.front ++ gap ++ f.back ++ [digit] <+: label

def families : List Family :=
  [⟨Ascii.text "AlmaLinux-", false, [], 56⟩,
   ⟨Ascii.text "Fedora", true, Ascii.text "-3", 51⟩,
   ⟨Ascii.text "CentOS", true, Ascii.text "-", 56⟩,
   ⟨Ascii.text "Circle", true, Ascii.text "-", 56⟩,
   ⟨Ascii.text "OL-", false, [], 56⟩,
   ⟨Ascii.text "RHEL-", false, [], 56⟩,
   ⟨Ascii.text "Rocky-", false, [], 56⟩,
   ⟨Ascii.text "MIRACLE-LINUX-", false, [], 56⟩]

/-- The characters of `cs`, and behind them what `n` matches -/
def chars (cs : List UInt8) (n : Node) : Node :=
  cs.foldr (fun c n => .concatenation (.character c) n) n

/-- `.*` -/
def anything : Node := .quantifier 0 (-1) true .anyCharacter

namespace Family

/-- `[8-9].*` -/
def last (f : Family) : Node :=
  .concatenation (.characterClass (f.low :: Ascii.text "-9].*" ++ [Ascii.nul])) anything

def node (f : Family) : Node :=
  .concatenation .anchorBegin (chars f.front
    (if f.gap then .concatenation anything (chars f.back f.last) else chars f.back f.last))

end Family

/-! ## What their nodes match -/

section Denotes

variable {string : List UInt8} {k : ℕ} {x y : Spot} {n : Node}

theorem consumes_iff {P : UInt8 → Prop} : Consumes string P x y ↔
    ∃ c rest, string.drop x.1 = c :: rest ∧ c ≠ Ascii.nul ∧ P c ∧ y = (x.1 + 1, x.2) := by
  rw [Consumes, List.getD_eq_getElem?_getD, ← List.head?_drop]
  cases string.drop x.1 with
  | nil =>
      constructor
      · rintro ⟨hne, -, -⟩
        exact absurd rfl hne
      · rintro ⟨c, rest, heq, -⟩
        cases heq
  | cons c rest =>
      constructor
      · rintro ⟨hne, hP, hy⟩
        exact ⟨c, rest, rfl, hne, hP, hy⟩
      · rintro ⟨c, rest, ⟨⟩, hne, hP, hy⟩
        exact ⟨hne, hP, hy⟩

theorem drop_succ {i : ℕ} {c : UInt8} {rest : List UInt8} (h : string.drop i = c :: rest) :
    string.drop (i + 1) = rest := by
  rw [← List.drop_drop, h, List.drop_one, List.tail_cons]

theorem denotes_chars : ∀ {cs : List UInt8}, Ascii.nul ∉ cs → ∀ {x : Spot},
    ((chars cs n).Denotes string k x y ↔
      cs <+: string.drop x.1 ∧ n.Denotes string k (x.1 + cs.length, x.2) y)
  | [], _, x => ⟨fun h => ⟨List.nil_prefix, h⟩, fun h => h.2⟩
  | c :: cs, hnul, x => by
      have hc : c ≠ Ascii.nul := fun h => hnul (h ▸ List.mem_cons_self)
      have hcs : Ascii.nul ∉ cs := fun h => hnul (List.mem_cons_of_mem c h)
      have hlength : x.1 + (c :: cs).length = x.1 + 1 + cs.length := by
        rw [List.length_cons, Nat.add_right_comm, Nat.add_assoc]
      rw [hlength]
      constructor
      · rintro ⟨z, hz, hrest⟩
        obtain ⟨c', rest, hdrop, -, rfl, rfl⟩ := consumes_iff.mp hz
        obtain ⟨htext, hn⟩ := (denotes_chars hcs).mp hrest
        rw [drop_succ hdrop] at htext
        rw [hdrop]
        exact ⟨List.cons_prefix_cons.mpr ⟨rfl, htext⟩, hn⟩
      · rintro ⟨htext, hn⟩
        obtain ⟨rest, hdrop, hrest⟩ := List.cons_prefix_iff.mp htext
        refine ⟨_, consumes_iff.mpr ⟨c, rest, hdrop, hc, rfl, rfl⟩, (denotes_chars hcs).mpr ?_⟩
        rw [drop_succ hdrop]
        exact ⟨hrest, hn⟩

theorem times_any : ∀ {m : ℕ} {x y : Spot}, Times (Consumes string fun _ => True) m x y ↔
    ∃ gap, gap.length = m ∧ Ascii.nul ∉ gap ∧ gap <+: string.drop x.1 ∧
      y = (x.1 + gap.length, x.2)
  | 0, x, y => by
      constructor
      · rintro rfl
        exact ⟨[], rfl, List.not_mem_nil, List.nil_prefix, rfl⟩
      · rintro ⟨gap, hlength, -, -, rfl⟩
        rw [hlength]
        rfl
  | m + 1, x, y => by
      constructor
      · rintro ⟨z, hz, hrest⟩
        obtain ⟨c, rest, hdrop, hc, -, rfl⟩ := consumes_iff.mp hz
        obtain ⟨gap, rfl, hnul, hgap, rfl⟩ := times_any.mp hrest
        rw [drop_succ hdrop] at hgap
        refine ⟨c :: gap, rfl, fun h => ?_, ?_, ?_⟩
        · rcases List.mem_cons.mp h with h | h
          · exact hc h.symm
          · exact hnul h
        · rw [hdrop]
          exact List.cons_prefix_cons.mpr ⟨rfl, hgap⟩
        · rw [List.length_cons, Nat.add_assoc, Nat.add_comm 1]
      · rintro ⟨gap, hlength, hnul, hgap, rfl⟩
        cases gap with
        | nil => cases hlength
        | cons c gap =>
            obtain ⟨rest, hdrop, hrest⟩ := List.cons_prefix_iff.mp hgap
            refine ⟨_, consumes_iff.mpr ⟨c, rest, hdrop, fun h => hnul (h ▸ List.mem_cons_self),
              trivial, rfl⟩, times_any.mpr ⟨gap, Nat.succ_inj.mp hlength,
              fun h => hnul (List.mem_cons_of_mem c h), ?_, ?_⟩⟩
            · rw [drop_succ hdrop]
              exact hrest
            · rw [List.length_cons, Nat.add_assoc, Nat.add_comm 1]

theorem denotes_anything : anything.Denotes string k x y ↔
    ∃ gap, Ascii.nul ∉ gap ∧ gap <+: string.drop x.1 ∧ y = (x.1 + gap.length, x.2) := by
  constructor
  · rintro ⟨m, -, -, h⟩
    obtain ⟨gap, -, hgap⟩ := times_any.mp h
    exact ⟨gap, hgap⟩
  · rintro ⟨gap, hgap⟩
    exact ⟨gap.length, Int.natCast_nonneg _, .inl rfl, times_any.mpr ⟨gap, rfl, hgap⟩⟩

/-- The class of the digits from `low` to 9 -/
theorem inClass_digits {low b : UInt8} (hlow : low = 51 ∨ low = 56) (rest : List UInt8) :
    InClass (low :: Ascii.minus :: 57 :: Ascii.rbracket :: rest) b ↔
      charValue low ≤ charValue b ∧ charValue b ≤ charValue 57 := by
  have hbracket : low ≠ Ascii.rbracket := by rcases hlow with rfl | rfl <;> decide
  have hback : low ≠ Ascii.backslash := by rcases hlow with rfl | rfl <;> decide
  constructor
  · rintro ⟨rs, rest', htext, r, hr, hin⟩
    cases htext with
    | escaped => exact absurd rfl hback
    | plain _ _ hitem hrest =>
        cases hitem with
        | single hne => exact absurd rfl hne
        | range _ =>
            cases hrest with
            | close =>
                rw [List.mem_singleton.mp hr] at hin
                exact hin
            | plain hfirst => exact absurd (hfirst rfl) Bool.false_ne_true
  · intro h
    exact ⟨_, _, .plain (fun h => absurd h hbracket) hback (.range (by decide)) .close, _,
      List.mem_singleton_self _, h⟩

theorem begins_append {u v s : List UInt8} :
    u ++ v <+: s ↔ u <+: s ∧ v <+: s.drop u.length := by
  constructor
  · rintro ⟨t, rfl⟩
    rw [List.append_assoc, List.drop_left]
    exact ⟨List.prefix_append _ _, List.prefix_append _ _⟩
  · rintro ⟨⟨t, rfl⟩, hv⟩
    rw [List.drop_left] at hv
    exact (List.prefix_append_right_inj u).mpr hv

/-- What has no NUL in it and stands at the beginning of a C string is in its text. -/
theorem prefix_text {u s rest : List UInt8} (hnul : Ascii.nul ∉ u) :
    u <+: s ++ Ascii.nul :: rest ↔ u <+: s := by
  refine ⟨fun h => ?_, fun h => h.trans (List.prefix_append _ _)⟩
  rcases List.prefix_or_prefix_of_prefix h (List.prefix_append s (Ascii.nul :: rest)) with h' | h'
  · exact h'
  · obtain ⟨v, rfl⟩ := h'
    rw [List.prefix_append_right_inj] at h
    cases v with
    | nil => rw [List.append_nil]
    | cons c v =>
        obtain ⟨rfl, -⟩ := List.cons_prefix_cons.mp h
        exact absurd (List.mem_append_right s List.mem_cons_self) hnul

namespace Family

variable {f : Family} {i : ℕ} {ms : Matches}

/-- The text of a family has no NUL, and its digits are from 3 or from 8 on. -/
def Plain (f : Family) : Prop :=
  Ascii.nul ∉ f.front ∧ Ascii.nul ∉ f.back ∧ (f.low = 51 ∨ f.low = 56)

instance (f : Family) : Decidable f.Plain := inferInstanceAs (Decidable (_ ∧ _))

theorem digit_iff {low b : UInt8} (hlow : low = 51 ∨ low = 56) :
    (charValue low ≤ charValue b ∧ charValue b ≤ charValue 57) ↔ low ≤ b ∧ b ≤ 57 := by
  rcases hlow with rfl | rfl
  · exact forall_byte (p := fun b => (charValue 51 ≤ charValue b ∧ charValue b ≤ charValue 57) ↔
      51 ≤ b ∧ b ≤ 57) (by decide +kernel) b
  · exact forall_byte (p := fun b => (charValue 56 ≤ charValue b ∧ charValue b ≤ charValue 57) ↔
      56 ≤ b ∧ b ≤ 57) (by decide +kernel) b

theorem last_iff (h : f.Plain) : (∃ y, f.last.Denotes string k x y) ↔
    ∃ digit, f.low ≤ digit ∧ digit ≤ 57 ∧ [digit] <+: string.drop x.1 := by
  have hdigits : ∀ b, InClass (f.low :: Ascii.text "-9].*" ++ [Ascii.nul]) b ↔
      f.low ≤ b ∧ b ≤ 57 := fun b => (inClass_digits h.2.2 _).trans (digit_iff h.2.2)
  constructor
  · rintro ⟨y, z, hz, -⟩
    obtain ⟨digit, rest, hdrop, -, hclass, rfl⟩ := consumes_iff.mp hz
    refine ⟨digit, ((hdigits digit).mp hclass).1, ((hdigits digit).mp hclass).2, ?_⟩
    rw [hdrop]
    exact List.cons_prefix_cons.mpr ⟨rfl, List.nil_prefix⟩
  · rintro ⟨digit, hlow, hhigh, hprefix⟩
    obtain ⟨rest, hdrop, -⟩ := List.cons_prefix_iff.mp hprefix
    refine ⟨_, _, consumes_iff.mpr ⟨digit, rest, hdrop, ?_, (hdigits digit).mpr ⟨hlow, hhigh⟩,
      rfl⟩, denotes_anything.mpr ⟨[], List.not_mem_nil, List.nil_prefix, rfl⟩⟩
    rintro rfl
    rcases h.2.2 with h | h <;> rw [h] at hlow <;> exact absurd hlow (by decide)

theorem digit_ne_nul (h : f.Plain) {digit : UInt8} (hlow : f.low ≤ digit) :
    digit ≠ Ascii.nul := by
  rintro rfl
  rcases h.2.2 with h | h <;> rw [h] at hlow <;> exact absurd hlow (by decide)

/-- What stands behind the front: a gap, if there is one, and the rest. -/
def behind (f : Family) : Node :=
  if f.gap then .concatenation anything (chars f.back f.last) else chars f.back f.last

theorem behind_iff : (∃ y, f.behind.Denotes string k (i, ms) y) ↔
    ∃ gap, (f.gap = false → gap = []) ∧ Ascii.nul ∉ gap ∧ gap <+: string.drop i ∧
      ∃ y, (chars f.back f.last).Denotes string k (i + gap.length, ms) y := by
  rw [behind]
  split
  case isTrue hgap =>
      constructor
      · rintro ⟨y, z, hz, hy⟩
        obtain ⟨gap, hnul, hprefix, rfl⟩ := denotes_anything.mp hz
        refine ⟨gap, fun h => ?_, hnul, hprefix, y, hy⟩
        rw [hgap] at h
        cases h
      · rintro ⟨gap, -, hnul, hprefix, y, hy⟩
        exact ⟨y, _, denotes_anything.mpr ⟨gap, hnul, hprefix, rfl⟩, hy⟩
  case isFalse hgap =>
      constructor
      · rintro ⟨y, hy⟩
        exact ⟨[], fun _ => rfl, List.not_mem_nil, List.nil_prefix, y, hy⟩
      · rintro ⟨gap, hnone, -, -, y, hy⟩
        rw [hnone (Bool.not_eq_true _ ▸ hgap)] at hy
        exact ⟨y, hy⟩

theorem back_iff (h : f.Plain) : (∃ y, (chars f.back f.last).Denotes string k (i, ms) y) ↔
    ∃ digit, f.low ≤ digit ∧ digit ≤ 57 ∧ f.back ++ [digit] <+: string.drop i := by
  constructor
  · rintro ⟨y, hy⟩
    obtain ⟨hback, hlast⟩ := (denotes_chars h.2.1).mp hy
    obtain ⟨digit, hlow, hhigh, hdigit⟩ := (last_iff h).mp ⟨y, hlast⟩
    refine ⟨digit, hlow, hhigh, begins_append.mpr ⟨hback, ?_⟩⟩
    rw [List.drop_drop]
    exact hdigit
  · rintro ⟨digit, hlow, hhigh, hprefix⟩
    obtain ⟨hback, hdigit⟩ := begins_append.mp hprefix
    rw [List.drop_drop] at hdigit
    obtain ⟨y, hy⟩ := (last_iff (x := (i + f.back.length, ms)) (k := k) h).mpr
      ⟨digit, hlow, hhigh, hdigit⟩
    exact ⟨y, (denotes_chars h.2.1).mpr ⟨hback, hy⟩⟩

/-- The pattern of a family matches at the beginning of the labels of the family. -/
theorem node_iff (h : f.Plain) {s rest : List UInt8} (hs : Ascii.nul ∉ s) :
    (∃ y, f.node.Denotes (s ++ Ascii.nul :: rest) k (0, ms) y) ↔ f.Labels s := by
  constructor
  · rintro ⟨y, z, ⟨-, rfl⟩, hy⟩
    obtain ⟨hfront, hbehind⟩ := (denotes_chars h.1).mp hy
    obtain ⟨gap, hgap, hnul, hprefix, hback⟩ := behind_iff.mp ⟨y, hbehind⟩
    obtain ⟨digit, hlow, hhigh, hdigit⟩ := (back_iff h).mp hback
    refine ⟨gap, digit, hgap, hlow, hhigh, ?_⟩
    have hne := digit_ne_nul h hlow
    dsimp only at hprefix hdigit
    rw [Nat.zero_add] at hprefix hdigit
    have hplain : Ascii.nul ∉ f.front ++ (gap ++ (f.back ++ [digit])) := by
      simp only [List.mem_append, List.mem_singleton, not_or]
      exact ⟨h.1, hnul, h.2.1, hne.symm⟩
    have hall : f.front ++ (gap ++ (f.back ++ [digit])) <+: s ++ Ascii.nul :: rest := by
      rw [begins_append, begins_append, List.drop_drop]
      exact ⟨hfront, hprefix, hdigit⟩
    rw [List.append_assoc, List.append_assoc]
    exact (prefix_text hplain).mp hall
  · rintro ⟨gap, digit, hgap, hlow, hhigh, hprefix⟩
    have hnul : Ascii.nul ∉ gap := fun hmem => hs (List.IsPrefix.subset hprefix (by
      simp only [List.mem_append, hmem, or_true, true_or]))
    have hfull := hprefix.trans (List.prefix_append s (Ascii.nul :: rest))
    rw [List.append_assoc, List.append_assoc, begins_append, begins_append, List.drop_drop]
      at hfull
    obtain ⟨hfront, hgap', hdigit⟩ := hfull
    have hback : ∃ y, (chars f.back f.last).Denotes (s ++ Ascii.nul :: rest) (k + 0)
        (f.front.length + gap.length, ms) y :=
      (back_iff h).mpr ⟨digit, hlow, hhigh, hdigit⟩
    obtain ⟨y, hy⟩ := behind_iff.mpr ⟨gap, hgap, hnul, hgap', hback⟩
    refine ⟨y, (0, ms), ⟨rfl, rfl⟩, (denotes_chars h.1).mpr ⟨hfront, ?_⟩⟩
    dsimp only
    rw [Nat.zero_add]
    exact hy

end Family

end Denotes

/-! ## The scan -/

theorem ends_text {s rest : List UInt8} (hs : Ascii.nul ∉ s) :
    Ends (s ++ Ascii.nul :: rest) s.length where
  inside := by
    intro i hi heq
    rw [List.getD_eq_getElem?_getD, List.getElem?_append_left hi,
      List.getElem?_eq_getElem hi, Option.getD_some] at heq
    exact hs (heq ▸ List.getElem_mem hi)
  nul := by
    rw [List.getD_eq_getElem?_getD, List.getElem?_append_right le_rfl, Nat.sub_self]
    rfl
  readable := by
    rw [List.length_append, List.length_cons]
    omega

/-- An anchored pattern is found if it matches at the beginning. -/
theorem LeftmostMatch.isSome_iff {root : Node} {string : List UInt8} {nmatches len : ℕ}
    (hanchored : nodeIsAnchored root = true) (hends : Ends string len) {r : Option Matches}
    (h : LeftmostMatch root string nmatches len r) : r.isSome = true ↔
      ∃ y, root.Denotes string 1
        (0, (List.replicate (savedMatches nmatches) none).set 0 (some 0)) y := by
  rw [LeftmostMatch, if_pos hanchored] at h
  constructor
  · intro hsome
    obtain ⟨ms, rfl⟩ := Option.isSome_iff_exists.mp hsome
    obtain ⟨i, hi, ⟨j, -, ⟨y, hy, -⟩, -⟩, -⟩ := h
    rw [Nat.le_zero.mp hi] at hy
    exact ⟨y, hy⟩
  · rintro ⟨y, hy⟩
    have hmatch : MatchesAt root string nmatches 0 y.1 (y.2.set 1 (some y.1)) := ⟨y, hy, rfl⟩
    cases r with
    | none =>
        exact absurd ⟨y.1, hmatch.inside hends (Nat.zero_le len), hmatch, hmatch.located⟩
          (h 0 le_rfl le_rfl _)
    | some ms => rfl

/-- A pattern that is parsed to the tree of a family, and is short -/
structure OfFamily (pattern : List UInt8) (f : Family) : Prop where
  parse : cregexParse pattern = .ok (some f.node)
  nul : Ascii.nul ∉ pattern
  closed : EscapesClosed pattern
  numbers : NumbersFit pattern
  length : pattern.length < 2 ^ 30
  short : (program f.node).length < 2 ^ 30
  plain : f.Plain

/-- No `$` stands in the pattern of a family. -/
theorem Family.node_assertsEnd (f : Family) : f.node.assertsEnd = false := by
  have hchars : ∀ (cs : List UInt8) {n : Node}, n.assertsEnd = false →
      (chars cs n).assertsEnd = false := by
    intro cs n hn
    induction cs with
    | nil => exact hn
    | cons c cs ih => exact ih
  refine hchars f.front ?_
  split
  · exact hchars f.back rfl
  · exact hchars f.back rfl

theorem redhat8From_iff {s rest : List UInt8} (hs : Ascii.nul ∉ s) :
    ∀ {patterns : List (List UInt8)} {fs : List Family}, List.Forall₂ OfFamily patterns fs →
      Achieves (redhat8From (s ++ Ascii.nul :: rest) patterns) fun found =>
        found = true ↔ ∃ f ∈ fs, f.Labels s
  | _, _, .nil => .ok ⟨fun h => absurd h Bool.false_ne_true, fun ⟨_, hf, _⟩ =>
      absurd hf List.not_mem_nil⟩
  | pattern :: patterns, f :: fs, .cons hpattern hpatterns => by
      have hends : Ends (s ++ Ascii.nul :: rest) s.length := ends_text hs
      obtain ⟨r, hleftmost, hrun⟩ := cregexRun_leftmost hpattern.nul hpattern.closed
        hpattern.length hpattern.numbers hpattern.parse hpattern.short hends
        (fun h => absurd h (not_readsBehind f.node_assertsEnd)) maxMatches
      have hiff := hleftmost.isSome_iff rfl hends
      rw [Family.node_iff hpattern.plain hs] at hiff
      rw [redhat8From, hrun, C.ok_bind]
      cases r with
      | none =>
          refine (redhat8From_iff hs hpatterns).mono fun found hfound => ?_
          rw [hfound, List.exists_mem_cons_iff, ← hiff]
          exact (or_iff_right Bool.false_ne_true).symm
      | some ms => exact .ok ⟨fun _ => ⟨f, List.mem_cons_self, hiff.mp rfl⟩, fun _ => rfl⟩

theorem redhat8Patterns_families : List.Forall₂ OfFamily redhat8Patterns families := by
  have hall : ∀ x ∈ redhat8Patterns.zip families,
      cregexParse x.1 = .ok (some x.2.node) ∧ Ascii.nul ∉ x.1 ∧ EscapesClosed x.1 ∧
        NumbersFit x.1 ∧ x.1.length < 2 ^ 30 ∧ (program x.2.node).length < 2 ^ 30 ∧
        x.2.Plain := by
    decide +kernel
  refine List.forall₂_iff_zip.mpr ⟨rfl, fun {pattern f} hmem => ?_⟩
  obtain ⟨hparse, hnul, hclosed, hnumbers, hlength, hshort, hplain⟩ := hall _ hmem
  exact ⟨hparse, hnul, hclosed, hnumbers, hlength, hshort, hplain⟩

/-- A label is one of a Red Hat 8 derivative if it begins as those of a family do; scanning it
comes by no fault. -/
theorem redhat8Derivative_iff {s rest : List UInt8} (hs : Ascii.nul ∉ s) :
    Achieves (redhat8Derivative (s ++ Ascii.nul :: rest)) fun found =>
      found = true ↔ ∃ f ∈ families, f.Labels s :=
  redhat8From_iff hs redhat8Patterns_families

theorem redhat8Derivative_fedora :
    Achieves (redhat8Derivative (Ascii.text "Fedora-S-dvd-x86_64-39" ++ Ascii.nul :: []))
      fun found => found = true := by
  refine (redhat8Derivative_iff (by decide)).mono fun found h => h.mpr ?_
  exact ⟨⟨Ascii.text "Fedora", true, Ascii.text "-3", 51⟩,
    List.mem_cons_of_mem _ List.mem_cons_self, Ascii.text "-S-dvd-x86_64", 57,
    fun h => absurd h (by decide), by decide, by decide, List.prefix_rfl⟩

end Nawam.Regex
