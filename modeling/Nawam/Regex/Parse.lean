import Mathlib.Data.List.Infix
import Nawam.Regex.Compile

/-!
# Parsing a pattern

The parser works on one block of nodes. What is not yet part of a larger node
stands on a stack that grows from the front; what is becomes the child of a node
and is put out, from the back of the block. The block is as large as
`estimate_nodes` says, and a node that is pushed must not meet those put out.

`parseContext_achieves` says that this is always so: a pattern of `n` bytes needs no
more than `2 * n + 1` nodes, and the parser reads nothing behind the end of the
pattern, provided that a backslash at its end is itself escaped.
-/

namespace Nawam.Regex

/-- `regex_parse_context`: the pattern that is left, the nodes on the stack with the
bottom first, and the index of the first node put out. The nodes put out are
children of others. -/
structure ParseContext where
  sp : List UInt8
  stack : List Node
  output : ℕ

namespace ParseContext

/-- `push`. The node must not lie where one is put out. -/
def push (context : ParseContext) (node : Node) : C ParseContext :=
  if context.stack.length < context.output then
    .ok { context with stack := context.stack ++ [node] }
  else .error .outOfBounds

def drop (context : ParseContext) : ParseContext :=
  { context with stack := context.stack.dropLast }

def consume (context : ParseContext) : C (Node × ParseContext) :=
  match context.stack.getLast? with
  | some node =>
      if 0 < context.output then
        .ok (node, { context with
          stack := context.stack.dropLast
          output := context.output - 1 })
      else .error .outOfBounds
  | none => .error .outOfBounds

/-- The loop of `concatenate`, which takes a node from the stack in each turn -/
def concatenateFrom : ℕ → ParseContext → ℕ → C ParseContext
  | 0, _, _ => .error .outOfFuel
  | turns + 1, context, bottom =>
      if bottom < context.stack.length - 1 then do
        let (right, context) ← context.consume
        let (left, context) ← context.consume
        let context ← context.push (.concatenation left right)
        concatenateFrom turns context bottom
      else .ok context

def concatenate (context : ParseContext) (bottom : ℕ) : C ParseContext :=
  if context.stack.length = bottom then context.push .epsilon
  else concatenateFrom (context.stack.length + 1) context bottom

end ParseContext

open ParseContext

/-- `*sp` -/
def peek (sp : List UInt8) : C UInt8 := entry sp 0

/-- The character, or the range that it begins, is passed over: `none` where the
range is empty. -/
def parseClassItem (ch : UInt8) (sp : List UInt8) : C (Option (List UInt8)) :=
  match sp with
  | [] => .error .outOfBounds
  | d :: t =>
      if d = Ascii.minus then
        match t with
        | [] => .error .outOfBounds
        | h :: t' =>
            if h ≠ Ascii.rbracket then
              if h < ch then .ok none else .ok (some t')
            else .ok (some sp)
      else .ok (some sp)

/-- The loop of `parse_char_class`, up to the bracket that ends the class; `first`
is `sp == from`. -/
def parseCharClassFrom : ℕ → Bool → List UInt8 → C (Option (List UInt8))
  | 0, _, _ => .error .outOfFuel
  | _ + 1, _, [] => .error .outOfBounds
  | turns + 1, first, ch :: sp =>
      if ch = Ascii.nul then .ok none
      else if ch = Ascii.rbracket ∧ first = false then .ok (some sp)
      else if ch = Ascii.backslash then
        match sp with
        | [] => .error .outOfBounds
        | ch :: sp =>
            if ch = Ascii.nul then .ok none
            else do
              match ← parseClassItem ch sp with
              | none => .ok none
              | some sp => parseCharClassFrom turns false sp
      else do
        match ← parseClassItem ch sp with
        | none => .ok none
        | some sp => parseCharClassFrom turns false sp

def parseCharClass (context : ParseContext) : C (Option ParseContext) := do
  let c ← peek context.sp
  let negated := c == 94
  let text := if negated then context.sp.tail else context.sp
  match ← parseCharClassFrom (text.length + 1) true text with
  | none => .ok none
  | some sp => do
      let context ← push { context with sp := sp }
        (if negated then .characterClassNegated text else .characterClass text)
      .ok (some context)

/-- `for (n = 0; *sp >= '0' && *sp <= '9'; ++sp) n = (n * 10) + (*sp - '0')` -/
def readInt : ℤ → List UInt8 → C (ℤ × List UInt8)
  | _, [] => .error .outOfBounds
  | n, c :: sp =>
      if isDigit c then readInt (int32 (int32 (n * 10) + ((c.toNat : ℤ) - 48))) sp
      else .ok (n, c :: sp)

/-- A quantifier takes the place of what it quantifies, and a `?` behind it makes it
not greedy. -/
def pushQuantifier (context : ParseContext) (nmin nmax : ℤ) : C ParseContext := do
  let c ← peek context.sp
  let context := if c = 63 then { context with sp := context.sp.tail } else context
  let (quantified, context) ← context.consume
  context.push (.quantifier nmin nmax (c ≠ 63) quantified)

/-- The bounds of an interval, and what stands behind the brace: `none` where there
is no interval. -/
def parseBounds (from' : List UInt8) : C (Option (ℤ × ℤ × List UInt8)) := do
  let (nmin, sp) ← readInt 0 from'
  let c ← peek sp
  let f ← peek from'
  if c = Ascii.comma then do
    let sp := sp.tail
    let d ← peek sp
    if f ≠ Ascii.comma ∧ d = Ascii.rbrace then .ok (some (nmin, -1, sp.tail))
    else do
      let (nmax, sp') ← readInt 0 sp
      let e ← peek sp'
      -- `*(sp - 1) == ','` where there are no digits
      if sp'.length = sp.length ∨ e ≠ Ascii.rbrace ∨ nmax < nmin then .ok none
      else .ok (some (nmin, nmax, sp'.tail))
  else if f ≠ Ascii.rbrace ∧ c = Ascii.rbrace then .ok (some (nmin, nmin, sp.tail))
  else .ok none

def parseInterval (context : ParseContext) : C (Option ParseContext) := do
  match ← parseBounds context.sp with
  | none => .ok none
  | some (nmin, nmax, sp) => do
      let context ← pushQuantifier { context with sp := sp } nmin nmax
      .ok (some context)

/-- The node of an alternation, where neither side, one or both are empty: `left` and
`right` are where the two are on the stack. -/
def pushAlternation (context : ParseContext) (left right : ℕ) : C ParseContext := do
  let l ← entry context.stack left
  let r ← entry context.stack right
  if l = .epsilon ∧ r = .epsilon then .ok context.drop
  else if l = .epsilon then do
    let (right, context) ← context.consume
    context.drop.push (.quantifier 0 1 true right)
  else if r = .epsilon then do
    let (left, context) ← context.drop.consume
    context.push (.quantifier 0 1 true left)
  else do
    let (right, context) ← context.consume
    let (left, context) ← context.consume
    context.push (.alternation left right)

/-- `parse_context`: the context with where the parsed node is on the stack. Each
turn takes a byte of the pattern. -/
def parseContext : ℕ → (bottom depth : ℕ) → ParseContext → C (Option (ParseContext × ℕ))
  | 0, _, _, _ => .error .outOfFuel
  | turns + 1, bottom, depth, context =>
      match context.sp with
      | [] => .error .outOfBounds
      | ch :: sp =>
          let context := { context with sp := sp }
          let goOn := parseContext turns bottom depth
          -- `goto CHARACTER`
          let character := fun (ch : UInt8) (context : ParseContext) => do
            goOn (← context.push (.character ch))
          let quantifier := fun nmin nmax =>
            if context.stack.length = bottom then character ch context
            else do goOn (← pushQuantifier context nmin nmax)
          if ch = Ascii.backslash then
            match sp with
            | [] => .error .outOfBounds
            | ch :: sp => character ch { context with sp := sp }
          else if ch = Ascii.dot then do goOn (← context.push .anyCharacter)
          else if ch = Ascii.lbracket then do
            match ← parseCharClass context with
            | none => .ok none
            | some context => goOn context
          else if ch = 124 then do
            let context ← context.concatenate bottom
            let left := context.stack.length - 1
            match ← parseContext turns context.stack.length depth context with
            | none => .ok none
            | some (context, right) => do
                let context ← pushAlternation context left right
                .ok (some (context, bottom))
          else if ch = 63 then quantifier 0 1
          else if ch = 42 then quantifier 0 (-1)
          else if ch = 43 then quantifier 1 (-1)
          else if ch = Ascii.lbrace then
            if context.stack.length = bottom then character ch context
            else do
              match ← parseInterval context with
              | none => character ch context
              | some context => goOn context
          else if ch = 94 then do goOn (← context.push .anchorBegin)
          else if ch = 36 then do goOn (← context.push .anchorEnd)
          else if ch = 40 then do
            match ← parseContext turns context.stack.length (depth + 1) context with
            | none => .ok none
            | some (context, _) => do
                let (captured, context) ← context.consume
                goOn (← context.push (.capture captured))
          else if ch = 41 then
            if 0 < depth then do
              let context ← context.concatenate bottom
              .ok (some (context, context.stack.length - 1))
            else .ok none
          else if ch = Ascii.nul then
            if depth = 0 then do
              let context ← context.concatenate bottom
              .ok (some (context, context.stack.length - 1))
            else .ok none
          else character ch context

def estimateNodes (pattern : List UInt8) : ℤ :=
  int32 (int32 (int32 pattern.length * 2) + 1)

/-- `cregex_parse` of a pattern without its NUL. A negative estimate is a size that no block
has; where it is not negative there is memory for the nodes. -/
def cregexParse (pattern : List UInt8) : C (Option Node) :=
  if estimateNodes pattern < 0 then .ok none
  else do
    let context : ParseContext :=
      { sp := pattern ++ [Ascii.nul], stack := [], output := (estimateNodes pattern).toNat }
    match ← parseContext (pattern.length + 1) 0 0 context with
    | none => .ok none
    | some (context, _) => do
        let root ← entry context.stack 0
        .ok (some root)

/-! ## What is left of the pattern -/

/-- The backslashes at the end of `t`, where `run` of them stand in front of it -/
def trailingBackslashes (run : ℕ) (t : List UInt8) : ℕ :=
  t.foldl (fun run c => if c = Ascii.backslash then run + 1 else 0) run

/-- No backslash at the end of `t` is there to escape what comes next. -/
def EscapesClosed (t : List UInt8) : Prop := trailingBackslashes 0 t % 2 = 0

instance (t : List UInt8) : Decidable (EscapesClosed t) :=
  inferInstanceAs (Decidable (_ = _))

/-- The number that the digits at the beginning of `t` go on with -/
def leadingNumber : ℕ → List UInt8 → ℕ
  | n, [] => n
  | n, c :: t => if isDigit c then leadingNumber (10 * n + (c.toNat - 48)) t else n

def NumbersFit (pattern : List UInt8) : Prop :=
  ∀ t, t <:+ pattern → leadingNumber 0 t < 2 ^ 31

instance (pattern : List UInt8) : Decidable (NumbersFit pattern) :=
  decidable_of_iff (∀ t ∈ pattern.tails, leadingNumber 0 t < 2 ^ 31)
    ⟨fun h t ht => h t ((List.mem_tails t pattern).mpr ht),
      fun h t ht => h t ((List.mem_tails t pattern).mp ht)⟩

/-- `t'` is what is left of `t` when some of it is parsed. -/
structure Behind (t t' : List UInt8) : Prop where
  suffix : t' <:+ t
  closed : EscapesClosed t → EscapesClosed t'

theorem trailingBackslashes_append (run : ℕ) (u t : List UInt8) :
    trailingBackslashes run (u ++ t) =
      trailingBackslashes (trailingBackslashes run u) t :=
  List.foldl_append

theorem trailingBackslashes_cons (run : ℕ) (c : UInt8) (t : List UInt8) :
    trailingBackslashes run (c :: t) =
      trailingBackslashes (if c = Ascii.backslash then run + 1 else 0) t := rfl

theorem trailingBackslashes_add_two (run : ℕ) (t : List UInt8) :
    trailingBackslashes (run + 2) t % 2 = trailingBackslashes run t % 2 := by
  induction t generalizing run with
  | nil => exact Nat.add_mod_right run 2
  | cons c t ih =>
      rw [trailingBackslashes_cons, trailingBackslashes_cons]
      split
      · exact ih (run + 1)
      · rfl

namespace Behind

variable {t t' t'' : List UInt8} {c : UInt8}

theorem refl (t : List UInt8) : Behind t t := ⟨List.suffix_rfl, id⟩

theorem trans (h : Behind t t') (h' : Behind t' t'') : Behind t t'' :=
  ⟨h'.suffix.trans h.suffix, fun hclosed => h'.closed (h.closed hclosed)⟩

theorem length_le (h : Behind t t') : t'.length ≤ t.length := h.suffix.length_le

theorem cons (hc : c ≠ Ascii.backslash) : Behind (c :: t) t := by
  refine ⟨List.suffix_cons c t, fun h => ?_⟩
  rw [EscapesClosed, trailingBackslashes_cons, if_neg hc] at h
  exact h

/-- A backslash goes with the byte that it escapes. -/
theorem escaped : Behind (Ascii.backslash :: c :: t) t := by
  refine ⟨(List.suffix_cons c t).trans (List.suffix_cons _ _), fun h => ?_⟩
  rw [EscapesClosed, trailingBackslashes_cons, if_pos rfl, trailingBackslashes_cons] at h
  split at h
  · rw [trailingBackslashes_add_two] at h
    exact h
  · exact h

/-- So the last byte is not a backslash that stands alone. -/
theorem not_singleton : ¬EscapesClosed [Ascii.backslash] := by decide

theorem numbersFit (h : Behind t t') (hfit : NumbersFit t) : NumbersFit t' :=
  fun s hs => hfit s (hs.trans h.suffix)

theorem nul (h : Behind t t') (hnul : Ascii.nul ∉ t) : Ascii.nul ∉ t' :=
  fun hmem => hnul (h.suffix.mem hmem)

end Behind

/-! ## A class -/

theorem parseClassItem_achieves {ch : UInt8} {t : List UInt8} (hch : ch ≠ Ascii.nul) :
    Achieves (parseClassItem ch (t ++ [Ascii.nul])) fun res => ∀ sp, res = some sp →
      ∃ r t', sp = t' ++ [Ascii.nul] ∧ t' <:+ t ∧ ClassItem ch (t ++ [Ascii.nul]) r sp := by
  have hsingle : ∀ d s, t ++ [Ascii.nul] = d :: s → d ≠ Ascii.minus →
      ∀ sp, some (t ++ [Ascii.nul]) = some sp →
        ∃ r t', sp = t' ++ [Ascii.nul] ∧ t' <:+ t ∧ ClassItem ch (t ++ [Ascii.nul]) r sp := by
    rintro d s hds hd sp ⟨⟩
    exact ⟨(ch, ch), t, rfl, List.suffix_rfl, by rw [hds]; exact .single hd⟩
  cases t with
  | nil =>
      have hne : Ascii.nul ≠ Ascii.minus := by decide
      simp only [List.nil_append, parseClassItem, if_neg hne]
      exact .ok (hsingle _ _ rfl hne)
  | cons d t =>
      by_cases hd : d = Ascii.minus
      · subst hd
        cases t with
        | nil =>
            have hlt : Ascii.nul < ch := by
              rw [UInt8.lt_iff_toNat_lt]
              exact Nat.pos_of_ne_zero fun h => hch (UInt8.toNat_inj.mp h)
            have hne : Ascii.nul ≠ Ascii.rbracket := by decide
            simp only [List.cons_append, List.nil_append, parseClassItem, if_true, if_pos hne,
              if_pos hlt]
            refine .ok ?_
            rintro sp ⟨⟩
        | cons h t =>
            simp only [List.cons_append, parseClassItem, if_true]
            refine .ite (fun hne => ?_) fun hne => ?_
            · refine .ite (fun _ => .ok ?_) fun _ => .ok ?_
              · rintro sp ⟨⟩
              · rintro sp ⟨⟩
                exact ⟨_, t, rfl, (List.suffix_cons h t).trans (List.suffix_cons _ _),
                  .range hne⟩
            · rw [not_not.mp hne]
              refine .ok ?_
              rintro sp ⟨⟩
              exact ⟨_, _, rfl, List.suffix_rfl, .last⟩
      · simp only [List.cons_append, parseClassItem, if_neg hd]
        exact .ok (hsingle _ _ rfl hd)

/-- A class that is parsed has its bracket, and behind that no backslash in the class
counts. -/
theorem parseCharClassFrom_achieves : ∀ (turns : ℕ) (first : Bool) (t : List UInt8),
    Ascii.nul ∉ t → t.length < turns →
      Achieves (parseCharClassFrom turns first (t ++ [Ascii.nul])) fun res =>
        ∀ sp, res = some sp → ∃ rs t', sp = t' ++ [Ascii.nul] ∧ t' <:+ t ∧
          t'.length < t.length ∧ (∀ run, trailingBackslashes run t = trailingBackslashes 0 t') ∧
          ClassText first (t ++ [Ascii.nul]) rs sp
  | 0, _, _, _, hturns => absurd hturns (Nat.not_lt_zero _)
  | turns + 1, first, [], _, _ => by
      simp only [List.nil_append, parseCharClassFrom, if_true]
      refine .ok ?_
      rintro sp ⟨⟩
  | turns + 1, first, ch :: t, hnul, hturns => by
      have hch : ch ≠ Ascii.nul := fun h => hnul (h ▸ List.mem_cons_self)
      have hnul' : Ascii.nul ∉ t := fun h => hnul (List.mem_cons_of_mem _ h)
      rw [List.length_cons] at hturns
      have hitem : ∀ (c : UInt8) (s : List UInt8), c ≠ Ascii.nul → Ascii.nul ∉ s →
          s.length < turns → Achieves (do
            match ← parseClassItem c (s ++ [Ascii.nul]) with
            | none => .ok none
            | some sp => parseCharClassFrom turns false sp) fun res =>
          ∀ sp, res = some sp → ∃ r rs t' t'', sp = t'' ++ [Ascii.nul] ∧ t'' <:+ s ∧
            t''.length ≤ s.length ∧
            (∀ run, trailingBackslashes run s = trailingBackslashes 0 t'') ∧
            ClassItem c (s ++ [Ascii.nul]) r (t' ++ [Ascii.nul]) ∧
            ClassText false (t' ++ [Ascii.nul]) rs sp := by
        intro c s hc hs hlt
        refine (parseClassItem_achieves hc).bind ?_
        rintro (_ | sp) hsome
        · refine .ok ?_
          rintro sp ⟨⟩
        · obtain ⟨r, t', rfl, hsuffix, hclass⟩ := hsome sp rfl
          have hle := hsuffix.length_le
          refine (parseCharClassFrom_achieves turns false t' (fun h => hs (hsuffix.mem h))
            (by omega)).mono ?_
          rintro res hres sp rfl
          obtain ⟨rs, t'', rfl, hsuffix', hlt', hrun, htext⟩ := hres sp rfl
          refine ⟨r, rs, t', t'', rfl, hsuffix'.trans hsuffix, by omega, fun run => ?_,
            hclass, htext⟩
          obtain ⟨u, rfl⟩ := hsuffix
          rw [trailingBackslashes_append, hrun]
      simp only [List.cons_append, parseCharClassFrom, if_neg hch]
      refine .ite ?_ fun hclose => ?_
      · rintro ⟨rfl, rfl⟩
        refine .ok ?_
        rintro sp ⟨⟩
        exact ⟨[], t, rfl, List.suffix_cons _ t, Nat.lt_succ_self _, fun _ => rfl, .close⟩
      · by_cases hback : ch = Ascii.backslash
        · subst hback
          rw [if_pos rfl]
          cases t with
          | nil =>
              simp only [List.nil_append, if_true]
              refine .ok ?_
              rintro sp ⟨⟩
          | cons c t =>
              have hc : c ≠ Ascii.nul := fun h => hnul' (h ▸ List.mem_cons_self)
              simp only [List.cons_append, if_neg hc]
              rw [List.length_cons] at hturns
              refine (hitem c t hc (fun h => hnul' (List.mem_cons_of_mem _ h))
                (by omega)).mono ?_
              intro res hres sp hsp
              obtain ⟨r, rs, t', t'', rfl, hsuffix, hle, hrun, hclass, htext⟩ := hres sp hsp
              refine ⟨r :: rs, t'', rfl, (hsuffix.trans (List.suffix_cons c t)).trans
                (List.suffix_cons _ _), ?_, fun run => ?_, .escaped hclass htext⟩
              · rw [List.length_cons, List.length_cons]
                omega
              · rw [trailingBackslashes_cons, trailingBackslashes_cons, hrun]
        · rw [if_neg hback]
          refine (hitem ch t hch hnul' (by omega)).mono ?_
          intro res hres sp hsp
          obtain ⟨r, rs, t', t'', rfl, hsuffix, hle, hrun, hclass, htext⟩ := hres sp hsp
          refine ⟨r :: rs, t'', rfl, hsuffix.trans (List.suffix_cons ch t), ?_, fun run => ?_,
            .plain (fun hbracket => ?_) hback hclass htext⟩
          · rw [List.length_cons]
            omega
          · rw [trailingBackslashes_cons, hrun]
          · rw [← Bool.not_eq_false]
            exact fun hfirst => hclose ⟨hbracket, hfirst⟩

/-! ## An interval -/

theorem peek_cons (c : UInt8) (sp : List UInt8) : peek (c :: sp) = .ok c := rfl

/-- There is always a byte to look at. -/
theorem peek_append_nul (t : List UInt8) :
    peek (t ++ [Ascii.nul]) = .ok (t.headD Ascii.nul) := by
  cases t with
  | nil => rfl
  | cons c t => rfl

theorem le_leadingNumber (n : ℕ) (t : List UInt8) : n ≤ leadingNumber n t := by
  induction t generalizing n with
  | nil => exact Nat.le_refl n
  | cons c t ih =>
      rw [leadingNumber]
      split
      · exact le_trans (by omega) (ih (10 * n + (c.toNat - 48)))
      · exact Nat.le_refl n

theorem int32_of_lt {n : ℕ} (h : n < 2 ^ 31) : int32 n = n := by
  rw [int32, Int.bmod_def]
  omega

/-- The digits are passed over, and they are read as the number they stand for. -/
theorem readInt_achieves (z : ℤ) (t : List UInt8) :
    Achieves (readInt z (t ++ [Ascii.nul])) fun res =>
      ∃ t', res.2 = t' ++ [Ascii.nul] ∧ Behind t t' ∧
        ∀ n : ℕ, z = n → leadingNumber n t < 2 ^ 31 → res.1 = leadingNumber n t := by
  induction t generalizing z with
  | nil =>
      have hdigit : isDigit Ascii.nul = false := by decide
      simp only [List.nil_append, readInt, hdigit, Bool.false_eq_true, if_false]
      exact .ok ⟨[], rfl, .refl _, fun n hz _ => hz⟩
  | cons c t ih =>
      simp only [List.cons_append, readInt]
      refine .ite (fun hdigit => ?_) fun hdigit => ?_
      · refine (ih _).mono ?_
        rintro ⟨m, sp⟩ ⟨t', rfl, hbehind, hvalue⟩
        have hne : c ≠ Ascii.backslash := by
          rintro rfl
          exact absurd hdigit (by decide)
        refine ⟨t', rfl, (Behind.cons hne).trans hbehind, fun n hz hlt => ?_⟩
        rw [leadingNumber, if_pos hdigit] at hlt ⊢
        have hle := le_leadingNumber (10 * n + (c.toNat - 48)) t
        have hge : 48 ≤ c.toNat := by
          rw [isDigit, Bool.and_eq_true, decide_eq_true_eq] at hdigit
          exact UInt8.le_iff_toNat_le.mp hdigit.1
        refine hvalue _ ?_ hlt
        have hten : z * 10 = ((10 * n : ℕ) : ℤ) := by
          rw [hz, Nat.cast_mul, Int.mul_comm]
          rfl
        have hnext : ((10 * n : ℕ) : ℤ) + ((c.toNat : ℤ) - 48) =
            ((10 * n + (c.toNat - 48) : ℕ) : ℤ) := by
          push_cast [Nat.cast_sub hge]
          rfl
        rw [hten, int32_of_lt (by omega), hnext, int32_of_lt (by omega)]
      · exact .ok ⟨c :: t, rfl, .refl _, fun n hz _ => by
          rw [hz, leadingNumber, if_neg hdigit]⟩

/-- The bounds of an interval are in order. -/
def BoundsSound (nmin nmax : ℤ) : Prop := 0 ≤ nmin ∧ (nmax = -1 ∨ nmin ≤ nmax)

theorem parseBounds_achieves {t : List UInt8} :
    Achieves (parseBounds (t ++ [Ascii.nul])) fun res =>
      ∀ nmin nmax sp, res = some (nmin, nmax, sp) →
        ∃ t', sp = t' ++ [Ascii.nul] ∧ Behind t t' ∧
          (NumbersFit t → BoundsSound nmin nmax) := by
  rw [parseBounds]
  refine (readInt_achieves 0 t).bind ?_
  rintro ⟨nmin, sp⟩ ⟨t₁, rfl, hbehind, hvalue⟩
  have hnmin : NumbersFit t → 0 ≤ nmin := by
    intro hfit
    have heq : nmin = leadingNumber 0 t := hvalue 0 rfl (hfit t List.suffix_rfl)
    rw [heq]
    exact Int.natCast_nonneg _
  simp only [peek_append_nul, C.ok_bind]
  refine .ite (fun hcomma => ?_) fun _ => ?_
  · cases t₁ with
    | nil => exact absurd hcomma (by decide)
    | cons c t₁ =>
        simp only [List.headD_cons] at hcomma
        subst hcomma
        simp only [List.cons_append, List.tail_cons, peek_append_nul, C.ok_bind]
        have hbehind₁ : Behind t t₁ := hbehind.trans (.cons (by decide))
        refine .ite (fun hbrace => ?_) fun _ => ?_
        · cases t₁ with
          | nil => exact absurd hbrace.2 (by decide)
          | cons d t₂ =>
              have hd : d = Ascii.rbrace := hbrace.2
              refine .ok ?_
              rintro nmin nmax sp ⟨⟩
              exact ⟨t₂, rfl, hbehind₁.trans (.cons (by rw [hd]; decide)),
                fun hfit => ⟨hnmin hfit, .inl rfl⟩⟩
        · refine (readInt_achieves 0 t₁).bind ?_
          rintro ⟨nmax, sp⟩ ⟨t₂, rfl, hbehind₂, -⟩
          simp only [peek_append_nul, C.ok_bind]
          refine .ite (fun _ => ?_) fun hbrace => ?_
          · refine .ok ?_
            rintro nmin nmax sp ⟨⟩
          · rw [not_or, not_or, not_not, not_lt] at hbrace
            obtain ⟨-, hbrace, hle⟩ := hbrace
            cases t₂ with
            | nil => exact absurd hbrace (by decide)
            | cons d t₃ =>
                have hd : d = Ascii.rbrace := hbrace
                refine .ok ?_
                rintro nmin nmax sp ⟨⟩
                exact ⟨t₃, rfl, hbehind₁.trans (hbehind₂.trans (.cons (by rw [hd]; decide))),
                  fun hfit => ⟨hnmin hfit, .inr hle⟩⟩
  · refine .ite (fun hbrace => ?_) fun _ => ?_
    · cases t₁ with
      | nil => exact absurd hbrace.2 (by decide)
      | cons d t₂ =>
          have hd : d = Ascii.rbrace := hbrace.2
          refine .ok ?_
          rintro nmin nmax sp ⟨⟩
          exact ⟨t₂, rfl, hbehind.trans (.cons (by rw [hd]; decide)),
            fun hfit => ⟨hnmin hfit, .inr le_rfl⟩⟩
    · refine .ok ?_
      rintro nmin nmax sp ⟨⟩

/-! ## The nodes -/

namespace ParseContext

theorem push_eq (sp : List UInt8) (stack : List Node) (node : Node) {output : ℕ}
    (h : stack.length < output) :
    push ⟨sp, stack, output⟩ node = .ok ⟨sp, stack ++ [node], output⟩ :=
  if_pos h

theorem consume_eq (sp : List UInt8) (stack : List Node) (node : Node) (output : ℕ) :
    consume ⟨sp, stack ++ [node], output + 1⟩ = .ok (node, ⟨sp, stack, output⟩) := by
  simp only [consume, List.getLast?_concat, if_pos (Nat.succ_pos output), List.dropLast_concat]
  rfl

/-- The nodes that `k` nodes on the stack take until they are one, with what
concatenates them -/
def cost (k : ℕ) : ℕ := if k = 0 then 1 else 2 * k - 1

theorem cost_zero : cost 0 = 1 := rfl

theorem cost_succ (k : ℕ) : cost (k + 1) = 2 * k + 1 := if_neg (Nat.succ_ne_zero k)

theorem le_cost (k : ℕ) : k ≤ cost k := by
  rw [cost]
  split <;> omega

theorem cost_succ_le (k : ℕ) : cost (k + 1) ≤ cost k + 2 := by
  cases k with
  | zero => exact Nat.le_add_right _ _
  | succ k => rw [cost_succ, cost_succ]; omega

/-- The nodes from the bottom on become one. -/
theorem concatenateFrom_achieves (sp : List UInt8) (below : List Node) :
    ∀ (turns : ℕ) (above : List Node) (node : Node) (output : ℕ), above.length < turns →
      below.length + 1 + above.length ≤ output →
      Achieves (concatenateFrom turns ⟨sp, below ++ node :: above, output + above.length⟩
        below.length) fun context' => ∃ root,
          context' = ⟨sp, below ++ [root], output - above.length⟩ ∧
          ((∀ n ∈ node :: above, n.Sound) → root.Sound)
  | 0, _, _, _, hturns, _ => absurd hturns (Nat.not_lt_zero _)
  | turns + 1, above, node, output, hturns, hroom => by
      rw [concatenateFrom]
      rcases List.eq_nil_or_concat' above with rfl | ⟨above, right, rfl⟩
      · rw [if_neg (by simp only [List.length_append, List.length_singleton]; omega)]
        exact .ok ⟨node, rfl, fun h => h node List.mem_cons_self⟩
      · rw [List.length_append, List.length_singleton] at hturns hroom
        -- the two at the top are the last of what is left, and the one in front of it
        obtain ⟨front, left, hleft⟩ : ∃ front left, node :: above = front ++ [left] :=
          (List.eq_nil_or_concat' (node :: above)).resolve_left (List.cons_ne_nil _ _)
        have hfront : front.length = above.length := by
          have h := congrArg List.length hleft
          rw [List.length_cons, List.length_append, List.length_singleton] at h
          omega
        obtain ⟨node', above', hcons⟩ : ∃ node' above',
            front ++ [Node.concatenation left right] = node' :: above' :=
          List.exists_cons_of_ne_nil (by simp only [ne_eq, List.append_eq_nil_iff,
            List.cons_ne_nil, and_false, not_false_eq_true])
        have habove : above'.length = above.length := by
          have h := congrArg List.length hcons
          rw [List.length_append, List.length_singleton, List.length_cons] at h
          omega
        have hstack :
            below ++ node :: (above ++ [right]) = below ++ front ++ [left] ++ [right] := by
          rw [← List.cons_append, hleft]
          simp only [List.append_assoc]
        have hlt : below.length < (below ++ front ++ [left] ++ [right]).length - 1 := by
          simp only [List.length_append, List.length_singleton]
          omega
        have houtput : output + (above ++ [right]).length = output - 1 + above.length + 1 + 1 := by
          rw [List.length_append, List.length_singleton]
          omega
        rw [hstack, if_pos hlt, houtput, consume_eq, C.ok_bind]
        dsimp only
        rw [consume_eq, C.ok_bind]
        dsimp only
        rw [push_eq _ _ _ (by rw [List.length_append]; omega), C.ok_bind, List.append_assoc, hcons,
          ← habove]
        refine (concatenateFrom_achieves sp below turns above' node' (output - 1) (by omega)
          (by omega)).mono ?_
        rintro context' ⟨root, rfl, hsound⟩
        refine ⟨root, ?_, fun h => hsound ?_⟩
        · rw [habove, List.length_append, List.length_singleton, Nat.sub_sub, Nat.add_comm 1]
        · rw [← hcons]
          rw [← List.cons_append, hleft] at h
          intro n hn
          rcases List.mem_append.mp hn with hn | hn
          · exact h n (List.mem_append_left _ (List.mem_append_left _ hn))
          · rw [List.mem_singleton.mp hn]
            exact ⟨h left (by simp only [List.mem_append, List.mem_singleton, or_true, true_or]),
              h right (by simp only [List.mem_append, List.mem_singleton, or_true])⟩

/-- What is above the bottom becomes one node, or the empty one where there is nothing. -/
theorem concatenate_achieves (sp : List UInt8) (below above : List Node) {output : ℕ}
    (hroom : below.length + cost above.length ≤ output) :
    Achieves (concatenate ⟨sp, below ++ above, output⟩ below.length) fun context' =>
      ∃ root, context' = ⟨sp, below ++ [root], output + 1 - cost above.length⟩ ∧
        ((∀ n ∈ above, n.Sound) → root.Sound) := by
  rw [concatenate]
  cases above with
  | nil =>
      rw [List.length_nil, cost_zero] at hroom
      rw [List.append_nil, if_pos rfl, push_eq _ _ _ (by omega)]
      exact .ok ⟨.epsilon, rfl, fun _ => trivial⟩
  | cons node above =>
      rw [List.length_cons, cost_succ] at hroom
      obtain ⟨output', rfl⟩ : ∃ output', output = output' + above.length :=
        Nat.exists_eq_add_of_le' (by omega)
      rw [if_neg (by simp only [List.length_append, List.length_cons]; omega)]
      refine (concatenateFrom_achieves sp below _ above node output'
        (by simp only [List.length_append, List.length_cons]; omega) (by omega)).mono ?_
      rintro context' ⟨root, rfl, hsound⟩
      refine ⟨root, ?_, hsound⟩
      rw [List.length_cons, cost_succ, Nat.two_mul, Nat.add_sub_add_right, Nat.add_sub_add_right]

end ParseContext

theorem pushQuantifier_achieves (t : List UInt8) (stack : List Node) (quantified : Node)
    (nmin nmax : ℤ) {output : ℕ} (h : stack.length < output) :
    Achieves (pushQuantifier ⟨t ++ [Ascii.nul], stack ++ [quantified], output + 1⟩ nmin nmax)
      fun context => ∃ t' greedy, Behind t t' ∧ context =
        ⟨t' ++ [Ascii.nul], stack ++ [.quantifier nmin nmax greedy quantified], output⟩ := by
  have hpush : ∀ t' greedy, (do
      let (quantified, context) ← consume ⟨t' ++ [Ascii.nul], stack ++ [quantified], output + 1⟩
      context.push (.quantifier nmin nmax greedy quantified)) =
        .ok ⟨t' ++ [Ascii.nul], stack ++ [.quantifier nmin nmax greedy quantified], output⟩ := by
    intro t' greedy
    rw [consume_eq, C.ok_bind]
    exact push_eq _ _ _ h
  rw [pushQuantifier, peek_append_nul, C.ok_bind]
  dsimp only
  split
  · next hc =>
      cases t with
      | nil => exact absurd hc (by decide)
      | cons c t =>
          rw [List.headD_cons] at hc
          subst hc
          rw [List.cons_append, List.tail_cons, hpush]
          exact .ok ⟨t, _, .cons (by decide), rfl⟩
  · rw [hpush]
    exact .ok ⟨t, _, .refl t, rfl⟩

theorem parseCharClass_achieves {t : List UInt8} (stack : List Node) {output : ℕ}
    (hnul : Ascii.nul ∉ t) (h : stack.length < output) :
    Achieves (parseCharClass ⟨t ++ [Ascii.nul], stack, output⟩) fun res =>
      ∀ context, res = some context → ∃ t' node, Behind t t' ∧ node.Sound ∧
        context = ⟨t' ++ [Ascii.nul], stack ++ [node], output⟩ := by
  have hclass : ∀ (s : List UInt8) (negated : Bool), Behind t s → Achieves (do
      match ← parseCharClassFrom ((s ++ [Ascii.nul]).length + 1) true (s ++ [Ascii.nul]) with
      | none => .ok none
      | some sp => do
          let context ← push ⟨sp, stack, output⟩ (if negated = true
            then .characterClassNegated (s ++ [Ascii.nul])
            else .characterClass (s ++ [Ascii.nul]))
          .ok (some context)) fun res =>
      ∀ context, res = some context → ∃ t' node, Behind t t' ∧ node.Sound ∧
        context = ⟨t' ++ [Ascii.nul], stack ++ [node], output⟩ := by
    intro s negated hbehind
    refine (parseCharClassFrom_achieves _ true s (hbehind.nul hnul)
      (by rw [List.length_append]; omega)).bind ?_
    rintro (_ | sp) hres
    · refine .ok ?_
      rintro context ⟨⟩
    · obtain ⟨rs, t', rfl, hsuffix, -, hrun, htext⟩ := hres sp rfl
      dsimp only
      rw [push_eq _ _ _ h, C.ok_bind]
      refine .ok ?_
      rintro context ⟨⟩
      refine ⟨t', _, hbehind.trans ⟨hsuffix, fun hclosed => ?_⟩, ?_, rfl⟩
      · rw [EscapesClosed, hrun] at hclosed
        exact hclosed
      · split <;> exact ⟨rs, _, htext⟩
  rw [parseCharClass, peek_append_nul, C.ok_bind]
  dsimp only
  cases t with
  | nil => exact hclass [] false (.refl _)
  | cons c t =>
      rw [List.headD_cons]
      by_cases hc : c = 94
      · subst hc
        exact hclass t true (.cons (by decide))
      · have hne : (c == 94) = false := beq_eq_false_iff_ne.mpr hc
        simp only [hne]
        exact hclass (c :: t) false (.refl _)

theorem parseInterval_achieves {t : List UInt8} (stack : List Node) (quantified : Node)
    {output : ℕ} (h : stack.length < output) :
    Achieves (parseInterval ⟨t ++ [Ascii.nul], stack ++ [quantified], output + 1⟩) fun res =>
      ∀ context, res = some context → ∃ t' nmin nmax greedy, Behind t t' ∧
        (NumbersFit t → BoundsSound nmin nmax) ∧ context =
          ⟨t' ++ [Ascii.nul], stack ++ [.quantifier nmin nmax greedy quantified], output⟩ := by
  rw [parseInterval]
  refine parseBounds_achieves.bind ?_
  rintro (_ | ⟨nmin, nmax, sp⟩) hres
  · refine .ok ?_
    rintro context ⟨⟩
  · obtain ⟨t₁, rfl, hbehind, hbounds⟩ := hres nmin nmax sp rfl
    refine (pushQuantifier_achieves t₁ stack quantified nmin nmax h).bind ?_
    rintro context ⟨t₂, greedy, hbehind₂, rfl⟩
    refine .ok ?_
    rintro context ⟨⟩
    exact ⟨t₂, nmin, nmax, greedy, hbehind.trans hbehind₂, hbounds, rfl⟩

/-- Both sides of an alternation become one node. -/
theorem pushAlternation_achieves (sp : List UInt8) (stack : List Node) (left right : Node)
    {output : ℕ} (h : stack.length < output) :
    Achieves (pushAlternation ⟨sp, stack ++ [left, right], output + 2⟩ stack.length
        (stack.length + 1)) fun context => ∃ node output', output ≤ output' ∧
      context = ⟨sp, stack ++ [node], output'⟩ ∧ (left.Sound → right.Sound → node.Sound) := by
  have hleft : entry (stack ++ [left, right]) stack.length = .ok left :=
    entry_of_getElem? (by rw [List.getElem?_append_right le_rfl, Nat.sub_self]; rfl)
  have hright : entry (stack ++ [left, right]) (stack.length + 1) = .ok right :=
    entry_of_getElem? (by
      rw [List.getElem?_append_right (Nat.le_succ _), Nat.succ_sub le_rfl, Nat.sub_self]
      rfl)
  have hstack : stack ++ [left, right] = stack ++ [left] ++ [right] := by
    rw [List.append_assoc]
    rfl
  have hdrop : ∀ output', drop ⟨sp, stack ++ [left, right], output'⟩ =
      ⟨sp, stack ++ [left], output'⟩ := by
    intro output'
    rw [drop, hstack, List.dropLast_concat]
  have hdrop' : ∀ node output', drop ⟨sp, stack ++ [node], output'⟩ = ⟨sp, stack, output'⟩ := by
    intro node output'
    rw [drop, List.dropLast_concat]
  rw [pushAlternation, hleft, C.ok_bind, hright, C.ok_bind]
  refine .ite ?_ fun _ => .ite ?_ fun _ => .ite ?_ fun _ => ?_
  · rintro ⟨rfl, -⟩
    rw [hdrop]
    exact .ok ⟨_, _, Nat.le_add_right _ 2, rfl, fun hleft _ => hleft⟩
  · rintro rfl
    rw [hstack, consume_eq, C.ok_bind]
    dsimp only
    rw [hdrop', push_eq _ _ _ (by omega)]
    exact .ok ⟨_, _, Nat.le_succ _, rfl, fun _ hright => ⟨le_rfl, .inr (by decide), hright⟩⟩
  · rintro rfl
    rw [hdrop, consume_eq, C.ok_bind]
    dsimp only
    rw [push_eq _ _ _ (by omega)]
    exact .ok ⟨_, _, Nat.le_succ _, rfl, fun hleft _ => ⟨le_rfl, .inr (by decide), hleft⟩⟩
  · rw [hstack, consume_eq, C.ok_bind]
    dsimp only
    rw [consume_eq, C.ok_bind]
    dsimp only
    rw [push_eq _ _ _ h]
    exact .ok ⟨_, _, le_rfl, rfl, fun hleft hright => ⟨hleft, hright⟩⟩

/-! ## The walk over the pattern -/

/-- What `parse_context` comes back with, where `above` are the nodes above the bottom:
they and what is parsed of `t` are one node. No more of the block is taken than what is
parsed allows for. -/
structure Parsed (depth : ℕ) (below above : List Node) (t : List UInt8) (output : ℕ)
    (context : ParseContext) (root : Node) (t' : List UInt8) : Prop where
  stack : context.stack = below ++ [root]
  sp : 0 < depth → context.sp = t' ++ [Ascii.nul] ∧ t'.length < t.length
  behind : Behind t t'
  room : output + 1 + (if 0 < depth then 2 else 0) + 2 * t'.length ≤
    context.output + cost above.length + 2 * t.length
  sound : NumbersFit t → (∀ n ∈ above, n.Sound) → root.Sound

/-- Where the walk has taken a step, it is enough to see to what is left. -/
theorem Parsed.of_step {depth : ℕ} {below above above₁ : List Node} {t t₁ t' : List UInt8}
    {output output₁ : ℕ} {context : ParseContext} {root : Node} (hbehind : Behind t t₁)
    (hroom : output + cost above₁.length + 2 * t₁.length ≤
      output₁ + cost above.length + 2 * t.length)
    (hsound : NumbersFit t → (∀ n ∈ above, n.Sound) → ∀ n ∈ above₁, n.Sound)
    (h : Parsed depth below above₁ t₁ output₁ context root t') :
    Parsed depth below above t output context root t' where
  stack := h.stack
  sp hdepth := ⟨(h.sp hdepth).1, (h.sp hdepth).2.trans_le hbehind.length_le⟩
  behind := hbehind.trans h.behind
  room := by
    have h := h.room
    omega
  sound hfit hnodes := h.sound (hbehind.numbersFit hfit) (hsound hfit hnodes)

/-- What `parse_context` answers above a bottom: nothing, or one node in the place of those
that are there and of what is parsed. -/
def Parses (depth : ℕ) (below above : List Node) (t : List UInt8) (output : ℕ)
    (res : Option (ParseContext × ℕ)) : Prop :=
  ∀ context p, res = some (context, p) → p = below.length ∧
    ∃ root t', Parsed depth below above t output context root t'

/-- A pattern that is left, with turns and nodes enough for it -/
structure Given (turns : ℕ) (below above : List Node) (t : List UInt8) (output : ℕ) : Prop where
  nul : Ascii.nul ∉ t
  closed : EscapesClosed t
  turns : t.length < turns
  room : below.length + cost above.length + 2 * t.length ≤ output

/-- The walk parses whatever pattern there are turns for. -/
def Walks (turns : ℕ) : Prop :=
  ∀ (depth : ℕ) {below above : List Node} {t : List UInt8} {output : ℕ},
    Given turns below above t output →
      Achieves (parseContext turns below.length depth ⟨t ++ [Ascii.nul], below ++ above, output⟩)
        (Parses depth below above t output)

theorem parses_none {depth : ℕ} {below above : List Node} {t : List UInt8} {output : ℕ} :
    Achieves (.ok none) (Parses depth below above t output) := by
  refine .ok ?_
  rintro context p ⟨⟩

namespace Given

variable {turns depth : ℕ} {below above : List Node} {t t₁ : List UInt8} {ch : UInt8}
  {output : ℕ}

theorem above_lt (h : Given turns below above t output) (hpos : 0 < t.length) :
    (below ++ above).length < output := by
  have hcost := le_cost above.length
  have hroom := h.room
  rw [List.length_append]
  omega

/-- There is a node at the top, and room for what takes its place. -/
theorem top (h : Given turns below above t output) (hne : above ≠ []) (hpos : 0 < t.length) :
    ∃ front quantified output₁, above = front ++ [quantified] ∧ output = output₁ + 1 ∧
      (below ++ front).length < output₁ := by
  obtain ⟨front, quantified, rfl⟩ := (List.eq_nil_or_concat' above).resolve_left hne
  have hroom := h.room
  rw [List.length_append, List.length_singleton, cost_succ] at hroom
  refine ⟨front, quantified, output - 1, rfl, by omega, ?_⟩
  rw [List.length_append]
  omega

section Step

variable (ih : Walks turns) (h : Given (turns + 1) below above t output)
include ih h

/-- The rest of the pattern, after a step -/
theorem goOn {above₁ : List Node} {output₁ : ℕ} (hbehind : Behind t t₁)
    (hshort : t₁.length < t.length)
    (hstep : output + cost above₁.length + 2 * t₁.length ≤
      output₁ + cost above.length + 2 * t.length)
    (hsound : NumbersFit t → (∀ n ∈ above, n.Sound) → ∀ n ∈ above₁, n.Sound) :
    Achieves (parseContext turns below.length depth
      ⟨t₁ ++ [Ascii.nul], below ++ above₁, output₁⟩) (Parses depth below above t output) := by
  have hturns := h.turns
  have hroom := h.room
  refine (ih depth ⟨hbehind.nul h.nul, hbehind.closed h.closed, by omega, by omega⟩).mono ?_
  intro res hres context p heq
  obtain ⟨hp, root, t', hparsed⟩ := hres context p heq
  exact ⟨hp, root, t', hparsed.of_step hbehind hstep hsound⟩

theorem pushed {node : Node} (hbehind : Behind t t₁) (hshort : t₁.length < t.length)
    (hsound : node.Sound) :
    Achieves (parseContext turns below.length depth
      ⟨t₁ ++ [Ascii.nul], below ++ above ++ [node], output⟩)
      (Parses depth below above t output) := by
  have hle := cost_succ_le above.length
  rw [List.append_assoc]
  refine h.goOn ih hbehind hshort ?_ fun hfit hnodes n hn => ?_
  · rw [List.length_append, List.length_singleton]
    omega
  · rcases List.mem_append.mp hn with hn | hn
    · exact hnodes n hn
    · rw [List.mem_singleton.mp hn]
      exact hsound

theorem pushNode {node : Node} (hbehind : Behind t t₁) (hshort : t₁.length < t.length)
    (hsound : node.Sound) :
    Achieves (do
      let context ← push ⟨t₁ ++ [Ascii.nul], below ++ above, output⟩ node
      parseContext turns below.length depth context) (Parses depth below above t output) := by
  rw [push_eq _ _ _ (h.above_lt (by omega)), C.ok_bind]
  exact h.pushed ih hbehind hshort hsound

/-- Behind a quantifier that takes the place of the node at the top -/
theorem quantified {front : List Node} {quantified : Node} {output₁ : ℕ}
    (habove : above = front ++ [quantified]) (houtput : output = output₁ + 1) {nmin nmax : ℤ}
    {greedy : Bool} (hbehind : Behind t t₁) (hshort : t₁.length < t.length)
    (hbounds : NumbersFit t → BoundsSound nmin nmax) :
    Achieves (parseContext turns below.length depth ⟨t₁ ++ [Ascii.nul],
      below ++ front ++ [.quantifier nmin nmax greedy quantified], output₁⟩)
      (Parses depth below above t output) := by
  subst habove houtput
  rw [List.append_assoc]
  refine h.goOn ih hbehind hshort ?_ fun hfit hnodes n hn => ?_
  · rw [List.length_append, List.length_append, List.length_singleton, List.length_singleton]
    omega
  · rcases List.mem_append.mp hn with hn | hn
    · exact hnodes n (List.mem_append_left _ hn)
    · rw [List.mem_singleton.mp hn]
      exact ⟨(hbounds hfit).1, (hbounds hfit).2,
        hnodes quantified (List.mem_append_right _ (List.mem_singleton_self _))⟩

theorem quantifier {nmin nmax : ℤ} (hne : above ≠ []) (hbehind : Behind t t₁)
    (hshort : t₁.length < t.length) (hbounds : BoundsSound nmin nmax) :
    Achieves (do
      let context ← pushQuantifier ⟨t₁ ++ [Ascii.nul], below ++ above, output⟩ nmin nmax
      parseContext turns below.length depth context) (Parses depth below above t output) := by
  obtain ⟨front, quantified, output₁, habove, houtput, hspare⟩ := h.top hne (by omega)
  have hpush := pushQuantifier_achieves t₁ (below ++ front) quantified nmin nmax hspare
  rw [List.append_assoc, ← habove, ← houtput] at hpush
  refine hpush.bind ?_
  rintro context ⟨t₂, greedy, hbehind₂, rfl⟩
  have hle := hbehind₂.length_le
  exact h.quantified ih habove houtput (hbehind.trans hbehind₂) (by omega) fun _ => hbounds

theorem charClass (hbehind : Behind t t₁) (hshort : t₁.length < t.length) :
    Achieves (do
      match ← parseCharClass ⟨t₁ ++ [Ascii.nul], below ++ above, output⟩ with
      | none => .ok none
      | some context => parseContext turns below.length depth context)
      (Parses depth below above t output) := by
  refine (parseCharClass_achieves (below ++ above) (hbehind.nul h.nul)
    (h.above_lt (by omega))).bind ?_
  rintro (_ | context) hres
  · exact parses_none
  · obtain ⟨t', node, hbehind', hnode, rfl⟩ := hres context rfl
    exact h.pushed ih (hbehind.trans hbehind') (hbehind'.length_le.trans_lt hshort) hnode

/-- `{` behind a node: an interval, or a brace that stands for itself -/
theorem interval {c : UInt8} (hne : above ≠ []) (hbehind : Behind t t₁)
    (hshort : t₁.length < t.length) :
    Achieves (do
      match ← parseInterval ⟨t₁ ++ [Ascii.nul], below ++ above, output⟩ with
      | none => do
          let context ← push ⟨t₁ ++ [Ascii.nul], below ++ above, output⟩ (.character c)
          parseContext turns below.length depth context
      | some context => parseContext turns below.length depth context)
      (Parses depth below above t output) := by
  obtain ⟨front, quantified, output₁, habove, houtput, hspare⟩ := h.top hne (by omega)
  have hinterval := parseInterval_achieves (t := t₁) (below ++ front) quantified hspare
  rw [List.append_assoc, ← habove, ← houtput] at hinterval
  refine hinterval.bind ?_
  rintro (_ | context) hres
  · exact h.pushNode ih hbehind hshort trivial
  · obtain ⟨t', nmin, nmax, greedy, hbehind', hbounds, rfl⟩ := hres context rfl
    exact h.quantified ih habove houtput (hbehind.trans hbehind')
      (hbehind'.length_le.trans_lt hshort) fun hfit => hbounds (hbehind.numbersFit hfit)

/-- `|`: what is in front of the bar is one node, and the bottom of the rest. -/
theorem alternation (hbehind : Behind t t₁) (hshort : t₁.length < t.length) :
    Achieves (do
      let context ← concatenate ⟨t₁ ++ [Ascii.nul], below ++ above, output⟩ below.length
      match ← parseContext turns context.stack.length depth context with
      | none => .ok none
      | some (context', right) => do
          let context ← pushAlternation context' (context.stack.length - 1) right
          .ok (some (context, below.length))) (Parses depth below above t output) := by
  have hturns := h.turns
  have hroom := h.room
  refine (concatenate_achieves (t₁ ++ [Ascii.nul]) below above (by omega)).bind ?_
  rintro context ⟨left, rfl, hleft⟩
  have hlength : (below ++ [left]).length = below.length + 1 := by
    rw [List.length_append, List.length_singleton]
  have hgiven : Given turns (below ++ [left]) [] t₁ (output + 1 - cost above.length) := by
    refine ⟨hbehind.nul h.nul, hbehind.closed h.closed, by omega, ?_⟩
    rw [hlength, List.length_nil, cost_zero]
    omega
  have hmain := ih depth hgiven
  rw [List.append_nil] at hmain
  refine hmain.bind ?_
  rintro (_ | ⟨context, right⟩) hres
  · exact parses_none
  obtain ⟨hp, root, t', hparsed⟩ := hres context right rfl
  obtain ⟨sp, stack, output'⟩ := context
  have hstack : stack = below ++ [left] ++ [root] := hparsed.stack
  have hspare := hparsed.room
  have hle := hparsed.behind.length_le
  rw [List.length_nil, cost_zero] at hspare
  obtain ⟨output', rfl⟩ : ∃ spare, output' = spare + 2 :=
    Nat.exists_eq_add_of_le' (by dsimp only at hspare; omega)
  dsimp only at hspare ⊢
  rw [hp, hstack, List.append_assoc, hlength, Nat.add_sub_cancel]
  refine (pushAlternation_achieves sp below left root (by omega)).bind ?_
  rintro context ⟨node, output'', hle', rfl, hnode⟩
  refine .ok ?_
  rintro context p ⟨⟩
  refine ⟨rfl, node, t', rfl, fun hdepth => ?_, hbehind.trans hparsed.behind, ?_,
    fun hfit hnodes => hnode (hleft hnodes)
      (hparsed.sound (hbehind.numbersFit hfit) (fun n hn => absurd hn List.not_mem_nil))⟩
  · exact ⟨(hparsed.sp hdepth).1, (hparsed.sp hdepth).2.trans hshort⟩
  · dsimp only
    omega

/-- `(`: a capture of what is up to its bracket -/
theorem captured (hbehind : Behind t t₁) (hshort : t₁.length < t.length) :
    Achieves (do
      match ← parseContext turns (below ++ above).length (depth + 1)
          ⟨t₁ ++ [Ascii.nul], below ++ above, output⟩ with
      | none => .ok none
      | some (context, _) => do
          let (captured, context) ← context.consume
          let context ← context.push (.capture captured)
          parseContext turns below.length depth context) (Parses depth below above t output) := by
  have hturns := h.turns
  have hroom := h.room
  have hcost := le_cost above.length
  have hgiven : Given turns (below ++ above) [] t₁ output := by
    refine ⟨hbehind.nul h.nul, hbehind.closed h.closed, by omega, ?_⟩
    rw [List.length_append, List.length_nil, cost_zero]
    omega
  have hmain := ih (depth + 1) hgiven
  rw [List.append_nil] at hmain
  refine hmain.bind ?_
  rintro (_ | ⟨context, p⟩) hres
  · exact parses_none
  obtain ⟨-, root, t', hparsed⟩ := hres context p rfl
  obtain ⟨hsp, hshort'⟩ := hparsed.sp (Nat.succ_pos depth)
  obtain ⟨sp, stack, output'⟩ := context
  have hstack : stack = below ++ above ++ [root] := hparsed.stack
  have hroom' := hparsed.room
  rw [if_pos (Nat.succ_pos depth), List.length_nil, cost_zero] at hroom'
  obtain ⟨output', rfl⟩ : ∃ spare, output' = spare + 1 :=
    Nat.exists_eq_add_of_le' (by dsimp only at hroom'; omega)
  dsimp only at hsp hroom' ⊢
  rw [hsp, hstack, consume_eq, C.ok_bind]
  dsimp only
  rw [push_eq _ _ _ (by rw [List.length_append]; omega), C.ok_bind, List.append_assoc]
  have hle := cost_succ_le above.length
  refine h.goOn ih (hbehind.trans hparsed.behind) (hshort'.trans hshort) ?_
    fun hfit hnodes n hn => ?_
  · rw [List.length_append, List.length_singleton]
    omega
  · rcases List.mem_append.mp hn with hn | hn
    · exact hnodes n hn
    · rw [List.mem_singleton.mp hn]
      exact hparsed.sound (hbehind.numbersFit hfit) fun n hn => absurd hn List.not_mem_nil

end Step

/-- The end of the pattern, or of what is in brackets: what is above the bottom is one
node. -/
theorem finish (h : Given turns below above t output) (hbehind : Behind t t₁) {sp : List UInt8}
    (hsp : 0 < depth → sp = t₁ ++ [Ascii.nul] ∧ t₁.length < t.length)
    (hspare : (if 0 < depth then 2 else 0) + 2 * t₁.length ≤ 2 * t.length) :
    Achieves (do
      let context ← concatenate ⟨sp, below ++ above, output⟩ below.length
      .ok (some (context, context.stack.length - 1))) (Parses depth below above t output) := by
  have hroom := h.room
  refine (concatenate_achieves sp below above (by omega)).bind ?_
  rintro context ⟨root, rfl, hsound⟩
  refine .ok ?_
  rintro context p ⟨⟩
  refine ⟨by rw [List.length_append, List.length_singleton, Nat.add_sub_cancel], root, t₁,
    rfl, hsp, hbehind, ?_, fun _ => hsound⟩
  dsimp only
  omega

end Given

theorem parseContext_achieves : ∀ turns, Walks turns
  | 0, _, _, _, _, _, h => absurd h.turns (Nat.not_lt_zero _)
  | turns + 1, depth, below, above, t, output, h => by
      have ih := parseContext_achieves turns
      have hempty : (below ++ above).length = below.length ↔ above = [] := by
        rw [List.length_append, Nat.add_eq_left, List.length_eq_zero_iff]
      cases t with
      | nil =>
          have hnul : parseContext (turns + 1) below.length depth
              ⟨[] ++ [Ascii.nul], below ++ above, output⟩ = if depth = 0 then do
                let context ← concatenate ⟨[], below ++ above, output⟩ below.length
                .ok (some (context, context.stack.length - 1))
              else .ok none := rfl
          rw [hnul]
          refine .ite (fun hdepth => ?_) fun _ => parses_none
          have hout : ¬0 < depth := by omega
          refine h.finish (.refl _) (fun hpos => absurd hpos hout) ?_
          rw [if_neg hout]
          omega
      | cons ch t =>
          have hshort : t.length < (ch :: t).length := Nat.lt_succ_self _
          simp only [parseContext, List.cons_append]
          refine .ite (fun hback => ?_) fun hback => ?_
          · subst hback
            cases t with
            | nil => exact absurd h.closed Behind.not_singleton
            | cons c t =>
                exact h.pushNode ih .escaped (by simp only [List.length_cons]; omega) trivial
          have hbehind : Behind (ch :: t) t := .cons hback
          have hnode : ∀ {node : Node}, node.Sound → Achieves (do
              let context ← push ⟨t ++ [Ascii.nul], below ++ above, output⟩ node
              parseContext turns below.length depth context)
              (Parses depth below above (ch :: t) output) :=
            h.pushNode ih hbehind hshort
          have hcharacter : (Node.character ch).Sound := trivial
          refine .ite (fun _ => hnode trivial) fun _ => ?_
          refine .ite (fun _ => h.charClass ih hbehind hshort) fun _ => ?_
          refine .ite (fun _ => h.alternation ih hbehind hshort) fun _ => ?_
          have hquantifier : ∀ {nmin nmax : ℤ}, BoundsSound nmin nmax →
              Achieves (if (below ++ above).length = below.length then do
                  let context ← push ⟨t ++ [Ascii.nul], below ++ above, output⟩ (.character ch)
                  parseContext turns below.length depth context
                else do
                  let context ← pushQuantifier ⟨t ++ [Ascii.nul], below ++ above, output⟩ nmin nmax
                  parseContext turns below.length depth context)
                (Parses depth below above (ch :: t) output) := fun hbounds =>
            .ite (fun _ => hnode hcharacter) fun hne =>
              h.quantifier ih (fun heq => hne (hempty.mpr heq)) hbehind hshort hbounds
          refine .ite (fun _ => hquantifier ⟨le_rfl, .inr (by decide)⟩) fun _ => ?_
          refine .ite (fun _ => hquantifier ⟨le_rfl, .inl rfl⟩) fun _ => ?_
          refine .ite (fun _ => hquantifier ⟨by decide, .inl rfl⟩) fun _ => ?_
          refine .ite (fun _ => .ite (fun _ => hnode hcharacter) fun hne =>
            h.interval ih (fun heq => hne (hempty.mpr heq)) hbehind hshort) fun _ => ?_
          refine .ite (fun _ => hnode trivial) fun _ => ?_
          refine .ite (fun _ => hnode trivial) fun _ => ?_
          refine .ite (fun _ => h.captured ih hbehind hshort) fun _ => ?_
          refine .ite (fun _ => .ite (fun hdepth => ?_) fun _ => parses_none) fun _ => ?_
          · refine h.finish hbehind (fun _ => ⟨rfl, hshort⟩) ?_
            rw [if_pos hdepth, List.length_cons]
            omega
          refine .ite (fun hnul => absurd (hnul ▸ List.mem_cons_self) h.nul) fun _ => ?_
          exact hnode hcharacter

/-- Up to 2 ^ 30 bytes, the nodes that are estimated for a pattern can be counted by an
`int`. -/
theorem estimateNodes_eq {pattern : List UInt8} (h : pattern.length < 2 ^ 30) :
    estimateNodes pattern = (pattern.length * 2 + 1 : ℕ) := by
  have htwice : (pattern.length : ℤ) * 2 = (pattern.length * 2 : ℕ) := by omega
  have hnext : ((pattern.length * 2 : ℕ) : ℤ) + 1 = (pattern.length * 2 + 1 : ℕ) := by omega
  rw [estimateNodes, int32_of_lt (by omega), htwice, int32_of_lt (by omega), hnext,
    int32_of_lt (by omega)]

/-- A pattern without a lone backslash at its end is parsed within its own bytes and within
the block of `estimate_nodes`, and what comes out is fit to be compiled. -/
theorem cregexParse_achieves {pattern : List UInt8} (hnul : Ascii.nul ∉ pattern)
    (hclosed : EscapesClosed pattern) (hlength : pattern.length < 2 ^ 30) :
    Achieves (cregexParse pattern) fun res =>
      ∀ root, res = some root → NumbersFit pattern → root.Sound := by
  have hestimate := estimateNodes_eq hlength
  rw [cregexParse, if_neg (by omega)]
  have hgiven : Given (pattern.length + 1) [] [] pattern (estimateNodes pattern).toNat := by
    refine ⟨hnul, hclosed, Nat.lt_succ_self _, ?_⟩
    rw [List.length_nil, cost_zero]
    omega
  refine (parseContext_achieves (pattern.length + 1) 0 hgiven).bind ?_
  rintro (_ | ⟨context, p⟩) hres
  · refine .ok ?_
    rintro root ⟨⟩
  · obtain ⟨-, root, t', hparsed⟩ := hres context p rfl
    obtain ⟨sp, stack, output⟩ := context
    have hstack : stack = [root] := hparsed.stack
    dsimp only
    rw [hstack, entry_of_getElem? rfl, C.ok_bind]
    refine .ok ?_
    rintro root' ⟨⟩ hfit
    exact hparsed.sound hfit fun n hn => absurd hn List.not_mem_nil

end Nawam.Regex
