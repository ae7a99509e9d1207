import Nawam.Base.Search
import Nawam.Regex.Denotation

/-!
# Compiling and running a pattern

A pattern that is compiled and run on a string finds the match that begins first
(`cregexProgramRun_leftmost`), with captures that one way through the pattern
sets. Nothing else in the string is taken for a match.
-/

namespace Nawam.Regex

open Priority

/-! ## Where the code leads -/

/-- The pointers of an instruction are set, and lead from `lo` to `hi`. -/
def Instr.Within (lo hi : ℕ) : Instr → Prop
  | .matched => False
  | .split first second =>
      ∃ a b, first = some a ∧ second = some b ∧ (lo ≤ a ∧ a ≤ hi) ∧ (lo ≤ b ∧ b ≤ hi)
  | .jump target => ∃ t, target = some t ∧ lo ≤ t ∧ t ≤ hi
  | _ => True

theorem Instr.Within.mono {lo hi lo' hi' : ℕ} {instr : Instr} (h : instr.Within lo hi)
    (hlo : lo' ≤ lo) (hhi : hi ≤ hi') : instr.Within lo' hi' := by
  cases instr with
  | matched => exact h
  | split first second =>
      obtain ⟨a, b, ha, hb, ⟨hla, hah⟩, hlb, hbh⟩ := h
      exact ⟨a, b, ha, hb, ⟨hlo.trans hla, hah.trans hhi⟩, hlo.trans hlb, hbh.trans hhi⟩
  | jump target =>
      obtain ⟨t, ht, hlt, hth⟩ := h
      exact ⟨t, ht, hlo.trans hlt, hth.trans hhi⟩
  | _ => trivial

theorem splitOf_within {lo hi a b : ℕ} (greedy : Bool) (ha : lo ≤ a ∧ a ≤ hi)
    (hb : lo ≤ b ∧ b ≤ hi) : (splitOf greedy (some a) (some b)).Within lo hi := by
  rcases splitOf_eq greedy a b with heq | heq
  · rw [heq]
    exact ⟨a, b, rfl, rfl, ha, hb⟩
  · rw [heq]
    exact ⟨b, a, rfl, rfl, hb, ha⟩

section Within

variable {body : ℕ → List Instr} {size : ℕ}
  (h : ∀ pc, ∀ i ∈ body pc, i.Within pc (pc + size))
include h

theorem copies_within : ∀ n pc, ∀ i ∈ copies body size n pc, i.Within pc (pc + n * size)
  | 0, _, _, hi => absurd hi List.not_mem_nil
  | n + 1, pc, i, hi => by
      rw [copies] at hi
      rw [Nat.succ_mul]
      rcases List.mem_append.mp hi with hi | hi
      · exact (h pc i hi).mono le_rfl (by omega)
      · exact (copies_within n (pc + size) i hi).mono (by omega) (by omega)

theorem optionals_within (greedy : Bool) : ∀ n pc, ∀ i ∈ optionals body size greedy n pc,
    i.Within pc (pc + n * (size + 1))
  | 0, _, _, hi => absurd hi List.not_mem_nil
  | n + 1, pc, i, hi => by
      rw [optionals] at hi
      rw [Nat.succ_mul]
      rcases List.mem_cons.mp hi with rfl | hi
      · exact splitOf_within greedy (by omega) (by omega)
      · rcases List.mem_append.mp hi with hi | hi
        · exact (h _ i hi).mono (by omega) (by omega)
        · exact (optionals_within greedy n _ i hi).mono (by omega) (by omega)

theorem star_within (greedy : Bool) (pc : ℕ) :
    ∀ i ∈ star body size greedy pc, i.Within pc (pc + (size + 2)) := by
  intro i hi
  rw [star] at hi
  rcases List.mem_cons.mp hi with rfl | hi
  · exact splitOf_within greedy (by omega) (by omega)
  · rcases List.mem_append.mp hi with hi | hi
    · exact (h _ i hi).mono (by omega) (by omega)
    · rw [List.mem_singleton.mp hi]
      exact ⟨pc, rfl, le_rfl, by omega⟩

end Within

/-- The code of a node leads nowhere but into the code and to the place behind
it. -/
theorem Node.code_within : ∀ (n : Node) (pc ncaptures : ℕ),
    ∀ i ∈ n.code pc ncaptures, i.Within pc (pc + n.size)
  | .epsilon, _, _, _, hi => absurd hi List.not_mem_nil
  | .character _, _, _, _, hi => by
      rw [List.mem_singleton.mp hi]
      trivial
  | .anyCharacter, _, _, _, hi => by
      rw [List.mem_singleton.mp hi]
      trivial
  | .characterClass _, _, _, _, hi => by
      rw [List.mem_singleton.mp hi]
      trivial
  | .characterClassNegated _, _, _, _, hi => by
      rw [List.mem_singleton.mp hi]
      trivial
  | .concatenation left right, pc, ncaptures, i, hi => by
      rw [size]
      rcases List.mem_append.mp hi with hi | hi
      · exact (left.code_within _ _ i hi).mono le_rfl (by omega)
      · exact (right.code_within _ _ i hi).mono (by omega) (by omega)
  | .alternation left right, pc, ncaptures, i, hi => by
      rw [size]
      rcases List.mem_cons.mp hi with rfl | hi
      · exact ⟨_, _, rfl, rfl, by omega, by omega⟩
      · rcases List.mem_append.mp hi with hi | hi
        · exact (left.code_within _ _ i hi).mono (by omega) (by omega)
        · rcases List.mem_cons.mp hi with rfl | hi
          · exact ⟨_, rfl, by omega, by omega⟩
          · exact (right.code_within _ _ i hi).mono (by omega) (by omega)
  | .quantifier nmin nmax greedy quantified, pc, ncaptures, i, hi => by
      have hbody := fun pc => quantified.code_within pc ncaptures
      rw [code] at hi
      rw [size]
      rcases List.mem_append.mp hi with hi | hi
      · exact (copies_within hbody _ _ i hi).mono le_rfl (by omega)
      · split at hi
        case isTrue hoptional =>
            rw [if_pos hoptional]
            exact (optionals_within hbody greedy _ _ i hi).mono (by omega) (by omega)
        case isFalse hoptional =>
            rw [if_neg hoptional]
            split at hi
            case isTrue hunbounded =>
                rw [if_pos hunbounded]
                split at hi
                case isTrue hzero =>
                    rw [if_pos hzero]
                    exact (star_within hbody greedy pc i hi).mono le_rfl (by omega)
                case isFalse hzero =>
                    have hle : (nmin.toNat - 1) * quantified.size ≤
                        nmin.toNat * quantified.size :=
                      Nat.mul_le_mul_right _ (Nat.sub_le _ 1)
                    rw [if_neg hzero, List.mem_singleton.mp hi]
                    exact splitOf_within greedy (by omega) (by omega)
            case isFalse => exact absurd hi List.not_mem_nil
  | .anchorBegin, _, _, _, hi => by
      rw [List.mem_singleton.mp hi]
      trivial
  | .anchorEnd, _, _, _, hi => by
      rw [List.mem_singleton.mp hi]
      trivial
  | .capture captured, pc, ncaptures, i, hi => by
      rw [size]
      rcases List.mem_cons.mp hi with rfl | hi
      · trivial
      · rcases List.mem_append.mp hi with hi | hi
        · exact (captured.code_within _ _ i hi).mono (by omega) (by omega)
        · rw [List.mem_singleton.mp hi]
          trivial

/-- A code with its final instruction is a program that can be run. -/
theorem runnable_code {code : List Instr} (h : ∀ i ∈ code, i.Within 0 code.length) :
    Runnable (code ++ [.matched]) := by
  intro pc instr hinstr
  rw [List.length_append, List.length_singleton]
  rw [List.getElem?_append] at hinstr
  split at hinstr
  case isTrue hlt =>
      have hwithin := h instr (List.mem_of_getElem? hinstr)
      cases instr with
      | matched => trivial
      | split first second =>
          obtain ⟨a, b, ha, hb, ⟨-, hah⟩, -, hbh⟩ := hwithin
          exact ⟨a, b, ha, hb, Nat.lt_succ_of_le hah, Nat.lt_succ_of_le hbh⟩
      | jump target =>
          obtain ⟨t, ht, -, hth⟩ := hwithin
          exact ⟨t, ht, Nat.lt_succ_of_le hth⟩
      | _ => exact Nat.succ_lt_succ hlt
  case isFalse hge =>
      rw [List.mem_singleton.mp (List.mem_of_getElem? hinstr)]
      trivial

theorem runnable_program (root : Node) : Runnable (program root) := by
  apply runnable_code
  rw [Node.code_length]
  intro i hi
  have := (wrapRoot root).code_within 0 0 i hi
  rwa [Nat.zero_add] at this

variable {prog : List Instr} {string : List UInt8}

theorem moves_target {pc sp lo hi : ℕ} {instr : Instr} (hinstr : prog[pc]? = some instr)
    (hwithin : instr = .matched ∨ instr.Within lo hi) {l : Edges (ℕ × ℕ) Matches}
    (hmoves : moves prog string (pc, sp) = some l) :
    ∀ e ∈ l, (e.1.1 = pc + 1 ∨ (lo ≤ e.1.1 ∧ e.1.1 ≤ hi)) ∧
      (e.1.2 = sp ∨ e.1.2 = sp + 1 ∧ string.getD sp 0 ≠ Ascii.nul) := by
  intro e he
  by_cases hwaits : (passes instr 0).isSome = true
  · rw [moves_waiting hinstr hwaits] at hmoves
    cases hmoves
    split at he
    case isTrue h =>
        rw [List.mem_singleton.mp he]
        exact ⟨.inl rfl, .inr ⟨rfl, h.1⟩⟩
    case isFalse => exact absurd he List.not_mem_nil
  · rw [moves, hinstr] at hmoves
    cases instr with
    | matched => cases hmoves
    | character _ => exact absurd rfl hwaits
    | anyCharacter => exact absurd rfl hwaits
    | characterClass _ => exact absurd rfl hwaits
    | characterClassNegated _ => exact absurd rfl hwaits
    | split first second =>
        obtain ⟨a, b, rfl, rfl, ha, hb⟩ := hwithin.resolve_left (by rintro ⟨⟩)
        cases hmoves
        rcases List.mem_cons.mp he with rfl | he
        · exact ⟨.inr ha, .inl rfl⟩
        · rw [List.mem_singleton.mp he]
          exact ⟨.inr hb, .inl rfl⟩
    | jump target =>
        obtain ⟨t, rfl, ht⟩ := hwithin.resolve_left (by rintro ⟨⟩)
        cases hmoves
        rw [List.mem_singleton.mp he]
        exact ⟨.inr ht, .inl rfl⟩
    | assertBegin =>
        cases hmoves
        split at he
        · rw [List.mem_singleton.mp he]
          exact ⟨.inl rfl, .inl rfl⟩
        · exact absurd he List.not_mem_nil
    | assertEnd =>
        cases hmoves
        split at he
        · rw [List.mem_singleton.mp he]
          exact ⟨.inl rfl, .inl rfl⟩
        · exact absurd he List.not_mem_nil
    | save _ =>
        cases hmoves
        rw [List.mem_singleton.mp he]
        exact ⟨.inl rfl, .inl rfl⟩

/-- What is found from the first instruction of a node is what the node matches,
where the machine matches behind it. -/
theorem finds_iff_denotes {n : Node} (h : n.Sound) {pc ncaptures : ℕ}
    (hcode : CodeAt prog pc (n.code pc ncaptures))
    (hmatched : prog[pc + n.size]? = some .matched) {x : Spot} {ms : Matches} :
    Finds (moves prog string) (at' pc x) ms ↔
      ∃ j, n.Denotes string ncaptures x (j, ms) := by
  have haccept : ∀ sp, moves prog string (pc + n.size, sp) = none := fun sp => by
    rw [moves, hmatched]
  constructor
  · intro hfinds
    obtain ⟨k, hleads⟩ := finds_iff_leads.mp hfinds
    obtain ⟨k', -, y, hxy, hleads⟩ := (implements h ncaptures).sound hcode hleads
    cases k' with
    | zero =>
        obtain ⟨-, rfl⟩ := hleads
        exact ⟨y.1, hxy⟩
    | succ k' =>
        obtain ⟨z, ⟨l, hl, -⟩, -⟩ := hleads
        rw [show moves prog string (at' (pc + n.size) y).1 = none from haccept y.1] at hl
        cases hl
  · rintro ⟨j, hxy⟩
    exact (implements h ncaptures).complete hcode hxy ⟨_, .refl, haccept j⟩

/-- A match of the whole pattern from `i` to `j`, with the captures it sets -/
def MatchesAt (root : Node) (string : List UInt8) (nmatches i j : ℕ) (ms : Matches) : Prop :=
  (Node.capture root).Denotes string 0 (i, List.replicate (savedMatches nmatches) none) (j, ms)

/-- The places that a search for a match from a position on can come to -/
def placesFrom (prog : List Instr) (lo len : ℕ) : Finset (ℕ × ℕ) :=
  ((Finset.range prog.length).filter (lo ≤ ·)) ×ˢ Finset.range (len + 1)

theorem mem_placesFrom {lo len : ℕ} {k : ℕ × ℕ} :
    k ∈ placesFrom prog lo len ↔ (k.1 < prog.length ∧ lo ≤ k.1) ∧ k.2 ≤ len := by
  rw [placesFrom, Finset.mem_product, Finset.mem_filter, Finset.mem_range, Finset.mem_range,
    Nat.lt_succ_iff]

/-- Nothing leads out of the code behind `lo`, or out of the string. -/
theorem placesFrom_closed {code : List Instr} {lo len : ℕ} (hends : Ends string len)
    (h : ∀ pc, lo ≤ pc → ∀ instr, (code ++ [Instr.matched])[pc]? = some instr →
      instr = .matched ∨ pc < code.length ∧ instr.Within lo code.length) :
    Closed (moves (code ++ [.matched]) string) (placesFrom (code ++ [.matched]) lo len) := by
  rintro ⟨pc, sp⟩ hk l hl ⟨⟨pc', sp'⟩, f⟩ he
  obtain ⟨⟨hlt, hlo⟩, hsp⟩ := mem_placesFrom.mp hk
  have hinstr := List.getElem?_eq_getElem hlt
  generalize (code ++ [Instr.matched])[pc] = instr at hinstr
  have hwithin := h pc hlo instr hinstr
  have hpc : pc < code.length := by
    rcases hwithin with rfl | hwithin
    · rw [moves, hinstr] at hl
      cases hl
    · exact hwithin.1
  obtain ⟨hpc', hsp'⟩ := moves_target hinstr (hwithin.imp_right And.right) hl _ he
  rw [mem_placesFrom, List.length_append, List.length_singleton]
  simp only at hpc' hsp' hlo hsp ⊢
  refine ⟨by omega, ?_⟩
  rcases hsp' with rfl | ⟨rfl, hne⟩
  · exact hsp
  · have : sp ≠ len := by
      rintro rfl
      exact hne hends.nul
    omega

/-! ## The first match -/

/-- What is answered is of the first position, from `i` to `len`, that has an
answer; and there is no answer if none has. -/
def AnswersFirst (Q : ℕ → Matches → Prop) (i len : ℕ) : Option Matches → Prop
  | none => ∀ j, i ≤ j → j ≤ len → ∀ ms, ¬Q j ms
  | some ms => ∃ j ≤ len, Q j ms ∧ IsFirst (fun j => ∃ ms, Q j ms) i j

theorem AnswersFirst.congr {Q Q' : ℕ → Matches → Prop} (h : ∀ j ms, Q j ms ↔ Q' j ms)
    {i len : ℕ} : ∀ {r : Option Matches}, AnswersFirst Q i len r → AnswersFirst Q' i len r := by
  have heq : Q = Q' := funext fun j => funext fun ms => propext (h j ms)
  intro r hr
  exact heq ▸ hr

/-- A position without an answer is passed over. -/
theorem AnswersFirst.step {Q : ℕ → Matches → Prop} {i len : ℕ} (hnot : ∀ ms, ¬Q i ms) :
    ∀ {r : Option Matches}, AnswersFirst Q (i + 1) len r → AnswersFirst Q i len r := by
  have hlater : ∀ j, i ≤ j → (∃ ms, Q j ms) → i + 1 ≤ j := by
    rintro j hij ⟨ms, hj⟩
    rcases Nat.eq_or_lt_of_le hij with rfl | hlt
    · exact absurd hj (hnot ms)
    · exact hlt
  intro r hr
  cases r with
  | none => exact fun j hij hj ms hQ => hr j (hlater j hij ⟨ms, hQ⟩) hj ms hQ
  | some ms =>
      obtain ⟨j, hj, hQ, hfirst⟩ := hr
      exact ⟨j, hj, hQ, Nat.le_of_succ_le hfirst.le, hfirst.holds, fun j' hij hlt hQ' =>
        hfirst.before j' (hlater j' hij hQ') hlt hQ'⟩

section Lead

variable {next : ℕ × ℕ → Option (Edges (ℕ × ℕ) Matches)} {dom fresh : Finset (ℕ × ℕ)}
  {len i : ℕ} {init : Matches}

/-- At one position: the matches there are searched for, and if there are none
nothing but their places is entered. -/
theorem search_lead_step (hclosed : Closed next dom) (hdom : ∀ k ∈ dom, 3 ≤ k.1)
    (hstart : (3, i) ∈ dom) (hsplit : next (0, i) = some [((3, i), id), ((1, i), id)])
    (h0 : (0, i) ∈ fresh) (hexplored : Explored next dom fresh []) (init : Matches) :
    (∃ ms, (search next fresh [((0, i), init)]).1 = some ms ∧ Finds next ((3, i), init) ms) ∨
      ∃ fresh', search next fresh [((0, i), init)] = search next fresh' [((1, i), init)] ∧
        (∀ ms, ¬Finds next ((3, i), init) ms) ∧ Explored next dom fresh' [] ∧
        ∀ pc j, pc < 3 → (pc, j) ≠ (0, i) → ((pc, j) ∈ fresh' ↔ (pc, j) ∈ fresh) := by
  have hfront : ∀ x ∈ [((3, i), init)], x.1 ∈ dom := by
    intro x hx
    rw [List.mem_singleton.mp hx]
    exact hstart
  have hexplored' : Explored next dom (fresh.erase (0, i))
      ([((3, i), init)].map Prod.fst ++ []) := by
    intro k hk hout
    have hne : k ≠ (0, i) := by
      rintro rfl
      exact Nat.not_succ_le_zero 2 (hdom _ hk)
    obtain ⟨l, hl, hedges⟩ := hexplored k hk fun hin => hout (Finset.mem_erase.mpr ⟨hne, hin⟩)
    exact ⟨l, hl, fun e he => ⟨(hedges e he).1, fun hin =>
      absurd ((hedges e he).2 (Finset.mem_of_mem_erase hin)) List.not_mem_nil⟩⟩
  rw [search_spread h0 hsplit]
  simp only [carry_cons, carry_nil, id_eq, List.append_nil]
  rcases hrun : search next (fresh.erase (0, i)) [((3, i), init)] with ⟨_ | ms, fresh'⟩
  · obtain ⟨hexp, hentered⟩ := search_none hclosed hfront hexplored' hrun
    refine .inr ⟨fresh', search_append_none (X := [((3, i), init)]) hrun, ?_, hexp, ?_⟩
    · exact hexp.not_finds hstart (hentered _ (List.mem_singleton.mpr rfl))
    · intro pc j hpc hne
      have hout : ¬(pc, j) ∈ dom := fun hin => absurd (hdom _ hin) (Nat.not_le.mpr hpc)
      have hsame : (pc, j) ∈ (search next (fresh.erase (0, i)) [((3, i), init)]).2 ↔
          (pc, j) ∈ fresh.erase (0, i) :=
        search_outside (fun k hk l hl e he => hclosed k hk l hl e he) hfront hout
      rw [hrun] at hsame
      rw [hsame, Finset.mem_erase, and_iff_right hne]
  · refine .inl ⟨ms, ?_, ?_⟩
    · exact congrArg Prod.fst (search_append_some (Y := [((1, i), init)]) hrun)
    · obtain ⟨x, hx, hfinds⟩ := search_sound (congrArg Prod.fst hrun)
      rwa [List.mem_singleton.mp hx] at hfinds

/-- `.*?` in front of a pattern: a search from a position on takes the matches at
that position first, and goes on to the next one if there are none. -/
theorem search_lead (hclosed : Closed next dom) (hdom : ∀ k ∈ dom, 3 ≤ k.1)
    (hstart : ∀ i ≤ len, (3, i) ∈ dom)
    (hsplit : ∀ i, next (0, i) = some [((3, i), id), ((1, i), id)])
    (hany : ∀ i < len, next (1, i) = some [((2, i + 1), id)]) (hend : next (1, len) = some [])
    (hjump : ∀ i, next (2, i) = some [((0, i), id)]) :
    ∀ (d i : ℕ) {fresh : Finset (ℕ × ℕ)}, i + d = len → (0, i) ∈ fresh → (1, i) ∈ fresh →
      (∀ j, i < j → j ≤ len → ∀ pc < 3, (pc, j) ∈ fresh) → Explored next dom fresh [] →
      AnswersFirst (fun j ms => Finds next ((3, j), init) ms) i len
        (search next fresh [((0, i), init)]).1 := by
  intro d
  induction d with
  | zero =>
      intro i fresh hi h0 h1 hahead hexplored
      obtain rfl : i = len := hi
      rcases search_lead_step hclosed hdom (hstart i le_rfl) (hsplit i) h0 hexplored init
        with ⟨ms, hrun, hfinds⟩ | ⟨fresh', hrun, hnot, -, hsame⟩
      · rw [hrun]
        exact ⟨i, le_rfl, hfinds, le_rfl, ⟨ms, hfinds⟩, fun j hij hji => absurd hji (by omega)⟩
      · have h1' : (1, i) ∈ fresh' := (hsame 1 i (by decide) (by simp)).mpr h1
        rw [hrun, search_spread h1' hend, carry_nil, List.nil_append, search_nil]
        intro j hij hji
        rw [← le_antisymm hij hji]
        exact hnot
  | succ d ih =>
      intro i fresh hi h0 h1 hahead hexplored
      rcases search_lead_step hclosed hdom (hstart i (by omega)) (hsplit i) h0 hexplored init
        with ⟨ms, hrun, hfinds⟩ | ⟨fresh', hrun, hnot, hexp, hsame⟩
      · rw [hrun]
        exact ⟨i, by omega, hfinds, le_rfl, ⟨ms, hfinds⟩, fun j hij hji => absurd hji (by omega)⟩
      · have h1' : (1, i) ∈ fresh' := (hsame 1 i (by decide) (by simp)).mpr h1
        have hin : ∀ pc j, pc < 3 → i < j → j ≤ len → (pc, j) ∈ fresh' := fun pc j hpc hij hj =>
          (hsame pc j hpc (by simp; omega)).mpr (hahead j hij hj pc hpc)
        have h2' : (2, i + 1) ∈ fresh'.erase (1, i) :=
          Finset.mem_erase.mpr ⟨by simp, hin 2 (i + 1) (by decide) (by omega) (by omega)⟩
        rw [hrun, search_spread h1' (hany i (by omega))]
        simp only [carry_cons, carry_nil, id_eq, List.append_nil]
        rw [search_spread h2' (hjump (i + 1))]
        simp only [carry_cons, carry_nil, id_eq, List.append_nil]
        have hleft : ∀ pc j, pc < 3 → i < j → j ≤ len → (pc, j) ≠ (2, i + 1) →
            (pc, j) ∈ (fresh'.erase (1, i)).erase (2, i + 1) := by
          intro pc j hpc hij hj hne
          refine Finset.mem_erase.mpr ⟨hne, Finset.mem_erase.mpr ⟨?_, hin pc j hpc hij hj⟩⟩
          rintro ⟨⟩
          exact absurd hij (Nat.lt_irrefl i)
        have hexp' : Explored next dom ((fresh'.erase (1, i)).erase (2, i + 1)) [] := by
          intro k hk hout
          have h3 := hdom k hk
          obtain ⟨l, hl, hedges⟩ := hexp k hk fun hkin => hout (Finset.mem_erase.mpr
            ⟨by rintro rfl; omega, Finset.mem_erase.mpr ⟨by rintro rfl; omega, hkin⟩⟩)
          exact ⟨l, hl, fun e he => ⟨(hedges e he).1, fun hein => (hedges e he).2
            (Finset.mem_of_mem_erase (Finset.mem_of_mem_erase hein))⟩⟩
        have hrest := ih (i + 1) (by omega) (hleft 0 (i + 1) (by decide) (by omega) (by omega)
          (by simp)) (hleft 1 (i + 1) (by decide) (by omega) (by omega) (by simp))
          (fun j hij hj pc hpc => hleft pc j hpc (by omega) hj (by simp; omega)) hexp'
        exact hrest.step hnot

end Lead

/-- All places of the string are among those that are searched. -/
theorem placesFrom_subset {lo len : ℕ} (hends : Ends string len) :
    placesFrom prog lo len ⊆ allPlaces prog string := by
  intro k hk
  obtain ⟨⟨hlt, -⟩, hle⟩ := mem_placesFrom.mp hk
  have := hends.readable
  exact Finset.mem_product.mpr ⟨Finset.mem_range.mpr hlt, Finset.mem_range.mpr (by omega)⟩

theorem search_fresh_none {next : ℕ × ℕ → Option (Edges (ℕ × ℕ) Matches)}
    {dom fresh : Finset (ℕ × ℕ)} (h : dom ⊆ fresh) : Explored next dom fresh [] :=
  fun _ hk hout => absurd (h hk) hout

theorem codeAt_append (code rest front : List Instr) :
    CodeAt (front ++ (code ++ rest)) front.length code := by
  intro k i hi
  rw [List.getElem?_append_right (Nat.le_add_right _ _), Nat.add_sub_cancel_left,
    List.getElem?_append_left (List.getElem?_eq_some_iff.mp hi).1]
  exact hi

/-- Where the code of a pattern stands behind others, what it finds from its first
instruction is a match of the pattern. -/
theorem finds_iff_matchesAt {root : Node} (h : root.Sound) (front : List Instr) {nmatches i : ℕ}
    {ms : Matches} :
    Finds (moves (front ++ ((Node.capture root).code front.length 0 ++ [.matched])) string)
        ((front.length, i), List.replicate (savedMatches nmatches) none) ms ↔
      ∃ j, MatchesAt root string nmatches i j ms := by
  have hsize := (Node.capture root).code_length front.length 0
  refine finds_iff_denotes (n := .capture root) (x := (i, _)) h (codeAt_append _ _ _) ?_
  rw [List.getElem?_append_right (Nat.le_add_right _ _), Nat.add_sub_cancel_left, ← hsize,
    List.getElem?_append_right (Nat.le_refl _), Nat.sub_self, List.getElem?_cons_zero]

/-- Behind what stands in front, the code of a pattern is not left. -/
theorem code_closed (root : Node) (front : List Instr) {len : ℕ} (hends : Ends string len) :
    Closed (moves (front ++ ((Node.capture root).code front.length 0 ++ [.matched])) string)
      (placesFrom (front ++ ((Node.capture root).code front.length 0 ++ [.matched]))
        front.length len) := by
  rw [← List.append_assoc]
  refine placesFrom_closed hends fun pc hpc instr hinstr => ?_
  rw [List.getElem?_append] at hinstr
  split at hinstr
  case isTrue hlt =>
      refine .inr ⟨hlt, ?_⟩
      rw [List.getElem?_append_right hpc] at hinstr
      rw [List.length_append, Node.code_length]
      exact Node.code_within _ _ _ instr (List.mem_of_getElem? hinstr)
  case isFalse => exact .inl (List.mem_singleton.mp (List.mem_of_getElem? hinstr))

/-- `.*?` -/
def leadCode : List Instr := [.split (some 3) (some 1), .anyCharacter, .jump (some 0)]

theorem program_eq (root : Node) : program root =
    if nodeIsAnchored root then (Node.capture root).code 0 0 ++ [.matched]
    else leadCode ++ ((Node.capture root).code leadCode.length 0 ++ [.matched]) := by
  rw [program, wrapRoot, nodeIsAnchored]
  split
  · rfl
  · rw [Node.code, List.append_assoc]
    rfl

theorem search_once {next : ℕ × ℕ → Option (Edges (ℕ × ℕ) Matches)}
    {dom fresh : Finset (ℕ × ℕ)} (hclosed : Closed next dom) (hsub : dom ⊆ fresh) {k : ℕ × ℕ}
    {init : Matches} (hk : k ∈ dom) {Q : ℕ → Matches → Prop}
    (hQ : ∀ ms, Finds next (k, init) ms ↔ Q 0 ms) :
    AnswersFirst Q 0 0 (search next fresh [(k, init)]).1 := by
  have hfront : ∀ x ∈ [(k, init)], x.1 ∈ dom := by
    intro x hx
    rw [List.mem_singleton.mp hx]
    exact hk
  have hexplored : Explored next dom fresh ([(k, init)].map Prod.fst ++ []) :=
    fun _ hin hout => absurd (hsub hin) hout
  rcases hrun : search next fresh [(k, init)] with ⟨_ | ms, fresh'⟩
  · obtain ⟨hexp, hentered⟩ := search_none hclosed hfront hexplored hrun
    intro j _ hj ms hms
    rw [Nat.le_zero.mp hj] at hms
    exact hexp.not_finds hk (hentered _ (List.mem_singleton.mpr rfl)) ms ((hQ ms).mpr hms)
  · obtain ⟨x, hx, hfinds⟩ := search_sound (congrArg Prod.fst hrun)
    rw [List.mem_singleton.mp hx] at hfinds
    exact ⟨0, le_rfl, (hQ ms).mp hfinds, le_rfl, ⟨ms, (hQ ms).mp hfinds⟩,
      fun j _ hj => absurd hj (Nat.not_lt_zero j)⟩

/-- A compiled pattern that is run on a string never faults, and answers the match
that begins first, with the captures of one way through the pattern; it answers
that there is none if there is none. A pattern that counts as anchored is only
tried at the beginning. -/
theorem cregexProgramRun_leftmost {root : Node} (h : root.Sound)
    (hshort : (program root).length < 2 ^ 30) {len : ℕ} (hends : Ends string len)
    (hbehind : ReadsBehind (program root) → len + 1 < string.length) (nmatches : ℕ) :
    ∃ prog r, cregexCompileNode root = .ok (some prog) ∧
      vmRun prog string nmatches =
        .ok (some (reached nmatches (false, List.replicate nmatches none) r)) ∧
      AnswersFirst (fun i ms => ∃ j, MatchesAt root string nmatches i j ms) 0
        (if nodeIsAnchored root then 0 else len) r := by
  have hne : program root ≠ [] := List.append_ne_nil_of_right_ne_nil _ (List.cons_ne_nil _ _)
  refine ⟨program root, _, (cregexCompileNode_fits h (by omega)).1,
    vmRun_eq_search (runnable_program root) hne hshort hends hbehind nmatches, ?_⟩
  rw [program_eq]
  split
  · have hclosed := code_closed root [] hends
    have hstart : (0, 0) ∈ placesFrom ([] ++ ((Node.capture root).code 0 0 ++ [.matched])) 0 len :=
      mem_placesFrom.mpr ⟨⟨Nat.succ_pos _, Nat.le_refl 0⟩, Nat.zero_le len⟩
    exact search_once hclosed (placesFrom_subset hends) hstart
      fun ms => finds_iff_matchesAt h []
  · have hclosed := code_closed root leadCode hends
    have hdom : ∀ k ∈ placesFrom (leadCode ++ ((Node.capture root).code leadCode.length 0 ++
        [.matched])) leadCode.length len, 3 ≤ k.1 := fun k hk => (mem_placesFrom.mp hk).1.2
    have hfresh : ∀ pc < 3, ∀ j ≤ len, (pc, j) ∈ allPlaces (leadCode ++
        ((Node.capture root).code leadCode.length 0 ++ [.matched])) string := by
      intro pc hpc j hj
      have := hends.readable
      refine Finset.mem_product.mpr ⟨Finset.mem_range.mpr ?_, Finset.mem_range.mpr (by omega)⟩
      rw [List.length_append]
      exact hpc.trans_le (Nat.le_add_right 3 _)
    have hany : ∀ i, moves (leadCode ++ ((Node.capture root).code leadCode.length 0 ++
        [.matched])) string (1, i) = some (if string.getD i 0 ≠ Ascii.nul ∧
          passes .anyCharacter (string.getD i 0) = some true
          then [((2, i + 1), id)] else []) := fun i => moves_waiting rfl rfl
    refine (search_lead hclosed hdom ?_ ?_ ?_ ?_ ?_ len 0 (Nat.zero_add len)
      (hfresh 0 (by decide) 0 (Nat.zero_le _)) (hfresh 1 (by decide) 0 (Nat.zero_le _))
      (fun j _ hj pc hpc => hfresh pc hpc j hj)
      (search_fresh_none (placesFrom_subset hends))).congr
        fun i ms => finds_iff_matchesAt h leadCode
    · intro i hi
      refine mem_placesFrom.mpr ⟨⟨?_, Nat.le_refl 3⟩, hi⟩
      rw [List.length_append]
      exact Nat.lt_add_of_pos_right (Nat.succ_pos _)
    · exact fun i => moves_split rfl i
    · intro i hi
      have hne := hends.inside i hi
      rw [hany i, if_pos ⟨hne, by rw [passes, bne_iff_ne.mpr hne]⟩]
    · rw [hany len, if_neg fun hne => hne.1 hends.nul]
    · exact fun i => moves_jump rfl i

end Nawam.Regex
