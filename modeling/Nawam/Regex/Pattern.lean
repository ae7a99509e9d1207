import Nawam.Regex.Matching
import Nawam.Regex.Parse

/-!
# A pattern, from its text to a match

Both callers of the engine parse a pattern, compile what is parsed and run the
program on a string. `cregexRun_leftmost` is what they get from it: no fault on the
way, and the first match, with all captures inside of it.

That is so of a pattern whose backslashes escape something, whose numbers an `int`
can say and whose program is not too long for the blocks, which are estimated as an
`int` (`cregexParse_compiles`). The byte behind the NUL of the string is read if a
`$` can follow what lets the NUL pass (`ReadsBehind`), so it has to be there then.
-/

namespace Nawam.Regex

/-- `cregex_parse`, `cregex_compile_node` and `cregex_program_run`, one behind the
other: `none` where there is no tree or no program, and of what is run what `vm_run`
returns. -/
def cregexRun (pattern string : List UInt8) (nmatches : ℕ) :
    C (Option (Option (Bool × Matches))) := do
  match ← cregexParse pattern with
  | none => .ok none
  | some root => do
      match ← cregexCompileNode root with
      | none => .ok none
      | some program => do
          let res ← vmRun program string nmatches
          .ok (some res)

variable {string : List UInt8} {len : ℕ}

/-! ## What is read of the string -/

/-- A `$` stands in the node. -/
def Node.assertsEnd : Node → Bool
  | .epsilon | .character _ | .anyCharacter | .anchorBegin => false
  | .characterClass _ | .characterClassNegated _ => false
  | .concatenation left right | .alternation left right => left.assertsEnd || right.assertsEnd
  | .quantifier _ _ _ quantified => quantified.assertsEnd
  | .anchorEnd => true
  | .capture captured => captured.assertsEnd

theorem splitOf_of {P : Instr → Prop} (h : ∀ first second, P (.split first second))
    (greedy : Bool) (first second : Option ℕ) : P (splitOf greedy first second) := by
  rw [splitOf]
  split
  · exact h _ _
  · exact h _ _

section Members

variable {P : Instr → Prop} {body : ℕ → List Instr} {size : ℕ}
  (h : ∀ pc, ∀ i ∈ body pc, P i)
include h

theorem copies_forall : ∀ n pc, ∀ i ∈ copies body size n pc, P i
  | 0, _, _, hi => absurd hi List.not_mem_nil
  | n + 1, pc, i, hi => by
      rw [copies] at hi
      rcases List.mem_append.mp hi with hi | hi
      · exact h pc i hi
      · exact copies_forall n (pc + size) i hi

variable (hsplit : ∀ first second, P (.split first second))
include hsplit

theorem optionals_forall (greedy : Bool) :
    ∀ n pc, ∀ i ∈ optionals body size greedy n pc, P i
  | 0, _, _, hi => absurd hi List.not_mem_nil
  | n + 1, pc, i, hi => by
      rw [optionals] at hi
      rcases List.mem_cons.mp hi with rfl | hi
      · exact splitOf_of hsplit _ _ _
      · rcases List.mem_append.mp hi with hi | hi
        · exact h _ i hi
        · exact optionals_forall greedy n _ i hi

theorem star_forall (hjump : ∀ target, P (.jump target)) (greedy : Bool) (pc : ℕ) :
    ∀ i ∈ star body size greedy pc, P i := by
  intro i hi
  rw [star] at hi
  rcases List.mem_cons.mp hi with rfl | hi
  · exact splitOf_of hsplit _ _ _
  · rcases List.mem_append.mp hi with hi | hi
    · exact h _ i hi
    · rw [List.mem_singleton.mp hi]
      exact hjump _

end Members

/-- Where no `$` stands in a node, none is compiled. -/
theorem Node.code_ne_assertEnd : ∀ {n : Node}, n.assertsEnd = false → ∀ pc ncaptures,
    ∀ i ∈ n.code pc ncaptures, i ≠ .assertEnd
  | .epsilon, _, _, _, _, hi => absurd hi List.not_mem_nil
  | .character _, _, _, _, _, hi => by
      rw [List.mem_singleton.mp hi]
      rintro ⟨⟩
  | .anyCharacter, _, _, _, _, hi => by
      rw [List.mem_singleton.mp hi]
      rintro ⟨⟩
  | .characterClass _, _, _, _, _, hi => by
      rw [List.mem_singleton.mp hi]
      rintro ⟨⟩
  | .characterClassNegated _, _, _, _, _, hi => by
      rw [List.mem_singleton.mp hi]
      rintro ⟨⟩
  | .concatenation left right, h, pc, ncaptures, i, hi => by
      rw [assertsEnd, Bool.or_eq_false_iff] at h
      rcases List.mem_append.mp hi with hi | hi
      · exact code_ne_assertEnd h.1 _ _ i hi
      · exact code_ne_assertEnd h.2 _ _ i hi
  | .alternation left right, h, pc, ncaptures, i, hi => by
      rw [assertsEnd, Bool.or_eq_false_iff] at h
      rcases List.mem_cons.mp hi with rfl | hi
      · rintro ⟨⟩
      · rcases List.mem_append.mp hi with hi | hi
        · exact code_ne_assertEnd h.1 _ _ i hi
        · rcases List.mem_cons.mp hi with rfl | hi
          · rintro ⟨⟩
          · exact code_ne_assertEnd h.2 _ _ i hi
  | .quantifier nmin nmax greedy quantified, h, pc, ncaptures, i, hi => by
      have hbody : ∀ pc, ∀ i ∈ quantified.code pc ncaptures, i ≠ .assertEnd :=
        fun pc => code_ne_assertEnd (n := quantified) h pc ncaptures
      have hsplit : ∀ first second, Instr.split first second ≠ .assertEnd := by
        rintro first second ⟨⟩
      rw [code] at hi
      rcases List.mem_append.mp hi with hi | hi
      · exact copies_forall hbody _ _ i hi
      · split at hi
        · exact optionals_forall hbody hsplit _ _ _ i hi
        · split at hi
          · split at hi
            · exact star_forall hbody hsplit (by rintro target ⟨⟩) _ _ i hi
            · rw [List.mem_singleton.mp hi]
              exact splitOf_of (P := (· ≠ .assertEnd)) hsplit _ _ _
          · exact absurd hi List.not_mem_nil
  | .anchorBegin, _, _, _, _, hi => by
      rw [List.mem_singleton.mp hi]
      rintro ⟨⟩
  | .anchorEnd, h, _, _, _, _ => by cases h
  | .capture captured, h, pc, ncaptures, i, hi => by
      rcases List.mem_cons.mp hi with rfl | hi
      · rintro ⟨⟩
      · rcases List.mem_append.mp hi with hi | hi
        · exact code_ne_assertEnd (n := captured) h _ _ i hi
        · rw [List.mem_singleton.mp hi]
          rintro ⟨⟩

/-- The byte behind the string is only read for a `$`. -/
theorem not_readsBehind {root : Node} (h : root.assertsEnd = false) :
    ¬ReadsBehind (program root) := by
  rintro ⟨hend, -⟩
  have hroot : (wrapRoot root).assertsEnd = false := by
    rw [wrapRoot]
    split
    · exact h
    · exact h
  rw [program] at hend
  rcases List.mem_append.mp hend with hend | hend
  · exact Node.code_ne_assertEnd hroot _ _ _ hend rfl
  · cases List.mem_singleton.mp hend

/-! ## Where a match is -/

theorem Consumes.inside (hends : Ends string len) {P : UInt8 → Prop} {x y : Spot}
    (h : Consumes string P x y) (hx : x.1 ≤ len) : y.1 ≤ len := by
  obtain ⟨hne, -, rfl⟩ := h
  refine Nat.lt_of_le_of_ne hx fun heq => hne ?_
  rw [heq]
  exact hends.nul

theorem Times.inside {R : Spot → Spot → Prop} (h : ∀ x y, R x y → x.1 ≤ len → y.1 ≤ len) :
    ∀ {k : ℕ} {x y : Spot}, Times R k x y → x.1 ≤ len → y.1 ≤ len
  | 0, _, _, rfl, hx => hx
  | _ + 1, x, _, ⟨z, hxz, hzy⟩, hx => Times.inside h hzy (h x z hxz hx)

/-- What a node matches ends within the string. -/
theorem Node.Denotes.inside (hends : Ends string len) : ∀ {n : Node} {ncaptures : ℕ}
    {x y : Spot}, n.Denotes string ncaptures x y → x.1 ≤ len → y.1 ≤ len
  | .epsilon, _, _, _, rfl, hx => hx
  | .character _, _, _, _, h, hx => Consumes.inside hends h hx
  | .anyCharacter, _, _, _, h, hx => Consumes.inside hends h hx
  | .characterClass _, _, _, _, h, hx => Consumes.inside hends h hx
  | .characterClassNegated _, _, _, _, h, hx => Consumes.inside hends h hx
  | .concatenation left right, _, _, _, ⟨_, hleft, hright⟩, hx =>
      inside hends (n := right) hright (inside hends (n := left) hleft hx)
  | .alternation left right, _, _, _, h, hx => by
      rcases h with h | h
      · exact inside hends (n := left) h hx
      · exact inside hends (n := right) h hx
  | .quantifier _ _ _ quantified, _, _, _, ⟨_, _, _, h⟩, hx =>
      Times.inside (fun _ _ h => inside hends (n := quantified) h) h hx
  | .anchorBegin, _, _, _, ⟨_, rfl⟩, hx => hx
  | .anchorEnd, _, _, _, ⟨_, rfl⟩, hx => hx
  | .capture captured, _, _, _, ⟨z, h, rfl⟩, hx => by
      have hz : z.1 ≤ len := inside hends (n := captured) h hx
      exact hz

/-- The captures of a match from `i` to `j`: the first two say where it is, and the
others lie in it. -/
structure Located (ms : Matches) (i j : ℕ) : Prop where
  start : 0 < ms.length → ms[0]? = some (some i)
  stop : 1 < ms.length → ms[1]? = some (some j)
  le : i ≤ j
  inside : ∀ k p : ℕ, ms[k]? = some (some p) → i ≤ p ∧ p ≤ j

theorem MatchesAt.located {root : Node} {nmatches i j : ℕ} {ms : Matches}
    (h : MatchesAt root string nmatches i j ms) : Located ms i j := by
  have hgrows := Node.Denotes.grows h
  obtain ⟨z, hcaptured, hms⟩ := h
  have hinner := Node.Denotes.grows hcaptured
  have hj : j = z.1 := congrArg Prod.fst hms
  have hset : ms = z.2.set 1 (some z.1) := congrArg Prod.snd hms
  have hlength : z.2.length = ms.length := by rw [hset, List.length_set]
  refine ⟨fun hpos => ?_, fun hpos => ?_, hgrows.le, fun k p hp => ?_⟩
  · -- the pattern itself leaves the first capture alone
    have hframe := hinner.frame 0 (by decide)
    have hlength' := hinner.length
    rw [List.length_set, hlength] at hlength'
    rw [hset, List.getElem?_set_ne (by decide), hframe]
    exact List.getElem?_set_self (hlength' ▸ hpos)
  · rw [hset, hj]
    exact List.getElem?_set_self (hlength ▸ hpos)
  · refine (hgrows.inside k p hp).resolve_left fun hinit => ?_
    have hnone := List.eq_of_mem_replicate (List.mem_of_getElem? hinit)
    cases hnone

/-- What is answered for a pattern: the first match, or that there is none. A pattern that
counts as anchored is only tried at the beginning. -/
def LeftmostMatch (root : Node) (string : List UInt8) (nmatches len : ℕ) :
    Option Matches → Prop :=
  AnswersFirst (fun i ms => ∃ j ≤ len, MatchesAt root string nmatches i j ms ∧ Located ms i j) 0
    (if nodeIsAnchored root then 0 else len)

theorem AnswersFirst.inside {root : Node} {nmatches i bound : ℕ} (hends : Ends string len)
    (hbound : bound ≤ len) {r : Option Matches}
    (h : AnswersFirst (fun i ms => ∃ j, MatchesAt root string nmatches i j ms) i bound r) :
    AnswersFirst (fun i ms => ∃ j ≤ len, MatchesAt root string nmatches i j ms ∧ Located ms i j)
      i bound r := by
  have hat : ∀ {i ms}, i ≤ bound → (∃ j, MatchesAt root string nmatches i j ms) →
      ∃ j ≤ len, MatchesAt root string nmatches i j ms ∧ Located ms i j := by
    rintro i ms hi ⟨j, hj⟩
    exact ⟨j, Node.Denotes.inside hends hj (hi.trans hbound), hj, hj.located⟩
  cases r with
  | none =>
      rintro i hi hib ms ⟨j, -, hj, -⟩
      exact h i hi hib ms ⟨j, hj⟩
  | some ms =>
      obtain ⟨k, hk, hmatch, hfirst⟩ := h
      refine ⟨k, hk, hat hk hmatch, hfirst.le, ⟨ms, hat hk hmatch⟩, ?_⟩
      rintro k' hik hlt ⟨ms', j, -, hj, -⟩
      exact hfirst.before k' hik hlt ⟨ms', j, hj⟩

section Engine

variable {pattern : List UInt8} (hnul : Ascii.nul ∉ pattern) (hclosed : EscapesClosed pattern)
  (hlength : pattern.length < 2 ^ 30)
include hnul hclosed hlength

/-- What is parsed is fit to be compiled, if its numbers fit an `int`. -/
theorem cregexParse_sound (hfit : NumbersFit pattern) {root : Node}
    (hparse : cregexParse pattern = .ok (some root)) : root.Sound := by
  obtain ⟨parsed, hparsed, hsound⟩ := cregexParse_achieves hnul hclosed hlength
  rw [hparse] at hparsed
  cases hparsed
  exact hsound root rfl hfit

/-- A pattern that is parsed, compiled and run: no fault, and what is answered is the first
match. -/
theorem cregexRun_leftmost (hfit : NumbersFit pattern) {root : Node}
    (hparse : cregexParse pattern = .ok (some root)) (hshort : (program root).length < 2 ^ 30)
    (hends : Ends string len) (hbehind : ReadsBehind (program root) → len + 1 < string.length)
    (nmatches : ℕ) :
    ∃ r, LeftmostMatch root string nmatches len r ∧ cregexRun pattern string nmatches =
      .ok (some (some (reached nmatches (false, List.replicate nmatches none) r))) := by
  have hsound := cregexParse_sound hnul hclosed hlength hfit hparse
  obtain ⟨program, r, hcompile, hrun, hfirst⟩ :=
    cregexProgramRun_leftmost hsound hshort hends hbehind nmatches
  refine ⟨r, hfirst.inside hends ?_, ?_⟩
  · split
    · exact Nat.zero_le len
    · exact le_rfl
  · rw [cregexRun, hparse, C.ok_bind]
    dsimp only
    rw [hcompile, C.ok_bind]
    dsimp only
    rw [hrun, C.ok_bind]

end Engine

end Nawam.Regex
