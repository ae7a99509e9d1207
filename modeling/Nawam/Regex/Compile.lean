import Mathlib.Data.Int.ModEq
import Mathlib.Tactic.Linarith
import Nawam.Regex.CharClass

/-!
# Compiling a pattern

A parsed pattern becomes a program by one walk over its nodes, which writes the
instructions one behind the other and fills in the targets of a split or a jump
when they are known. The block that they are written to is allocated before, for
as many instructions as `estimate_instructions` makes out, which is an `int`.

`code` is the same program written down at once: what a node compiles to is a
list of instructions that depends on where it begins and on the captures in
front of it. The walk writes it where the block has room (`compileContext_eq`).
The estimate is its length up to what an `int` wraps (`estimateInstructions_eq`),
so a program that an `int` can count fits (`cregexCompileNode_fits`), and a longer
one does not (`cregexCompileNode_overruns`).
-/

namespace Nawam.Regex

/-- `cregex_node_t`. The text of a class is the pattern from `from` on. -/
inductive Node where
  | epsilon
  | character (ch : UInt8)
  | anyCharacter
  | characterClass (text : List UInt8)
  | characterClassNegated (text : List UInt8)
  | concatenation (left right : Node)
  | alternation (left right : Node)
  | quantifier (nmin nmax : ℤ) (greedy : Bool) (quantified : Node)
  | anchorBegin
  | anchorEnd
  | capture (captured : Node)
deriving DecidableEq

/-- `cregex_program_instr_t`. A pointer to an instruction is its index. -/
inductive Instr where
  | matched
  | character (ch : UInt8)
  | anyCharacter
  | characterClass (klass : CharClass)
  | characterClassNegated (klass : CharClass)
  | split (first second : Option ℕ)
  | jump (target : Option ℕ)
  | assertBegin
  | assertEnd
  | save (save : ℕ)

theorem entry_of_getElem? {α : Type} {xs : List α} {i : ℕ} {a : α} (h : xs[i]? = some a) :
    entry xs i = .ok a := by
  rw [entry, h]

/-- What an `int` operation makes of its result. -/
def int32 (x : ℤ) : ℤ := x.bmod (2 ^ 32)

/-! ## Counting -/

def countInstructions : Node → ℤ
  | .epsilon => 0
  | .character _ | .anyCharacter | .characterClass _ | .characterClassNegated _ => 1
  | .concatenation left right => int32 (countInstructions left + countInstructions right)
  | .alternation left right =>
      int32 (int32 (2 + countInstructions left) + countInstructions right)
  | .quantifier nmin nmax _ quantified =>
      let num := countInstructions quantified
      if nmax ≥ nmin then
        int32 (int32 (nmin * num) + int32 (int32 (nmax - nmin) * int32 (num + 1)))
      else int32 (1 + if nmin ≠ 0 then int32 (nmin * num) else int32 (num + 1))
  | .anchorBegin | .anchorEnd => 1
  | .capture captured => int32 (2 + countInstructions captured)

def nodeIsAnchored : Node → Bool
  | .epsilon => false
  | .character _ | .anyCharacter | .characterClass _ | .characterClassNegated _ => false
  | .concatenation left _ => nodeIsAnchored left
  | .alternation left right => nodeIsAnchored left && nodeIsAnchored right
  | .quantifier _ _ _ quantified => nodeIsAnchored quantified
  | .anchorBegin => true
  | .anchorEnd => false
  | .capture captured => nodeIsAnchored captured

def estimateInstructions (root : Node) : ℤ :=
  int32 (int32 (int32 (countInstructions root +
    (if nodeIsAnchored root then 0 else 1) * 3) + 2) + 1)

/-! ## The walk -/

/-- `regex_compile_context`: the number of instructions that the block holds, what is
written so far, and the captures in it. -/
structure CompileContext where
  room : ℕ
  instructions : List Instr
  ncaptures : ℕ
  fits : instructions.length ≤ room

namespace CompileContext

/-- `context->pc` -/
def pc (context : CompileContext) : ℕ := context.instructions.length

/-- `emit`, which gives `context->pc` as it was. The instruction must lie in the block. -/
def emit (context : CompileContext) (instruction : Instr) : C CompileContext :=
  if h : context.instructions.length < context.room then
    .ok { context with
      instructions := context.instructions ++ [instruction]
      fits := by
        rw [List.length_append, List.length_singleton]
        exact h }
  else .error .outOfBounds

/-- The instruction at `pc` is filled in. -/
def fill (context : CompileContext) (pc : ℕ) (instruction : Instr) : CompileContext :=
  { context with
    instructions := context.instructions.set pc instruction
    fits := by
      rw [List.length_set]
      exact context.fits }

end CompileContext

open CompileContext

section Loops

variable (body : CompileContext → C CompileContext) (ncaptures : ℕ)

/-- `for (int i = 0; i < node->nmin; ++i)`, with `last` -/
def compileCopies : ℕ → Option ℕ → CompileContext → C (CompileContext × Option ℕ)
  | 0, last, context => .ok (context, last)
  | n + 1, _, context => do
      let last := context.pc
      let context ← body { context with ncaptures := ncaptures }
      compileCopies n (some last) context

/-- A split, whose two ways change places unless the quantifier is greedy. -/
def splitOf (greedy : Bool) (first second : Option ℕ) : Instr :=
  if greedy then .split first second else .split second first

/-- `for (int i = 0; i < node->nmax - node->nmin; ++i)` -/
def compileOptionals (greedy : Bool) : ℕ → CompileContext → C CompileContext
  | 0, context => .ok context
  | n + 1, context => do
      let split := context.pc
      let context ← emit { context with ncaptures := ncaptures } (.split none none)
      let first := context.pc
      let context ← body context
      let second := context.pc
      compileOptionals greedy n (context.fill split (splitOf greedy (some first) (some second)))

/-- The split of a quantifier without an upper bound: around a copy of its
own, or back to the last one -/
def compileUnbounded (greedy : Bool) (nmin : ℤ) (last : Option ℕ) (context : CompileContext) :
    C CompileContext := do
  let split := context.pc
  let context ← emit context (.split none none)
  if nmin = 0 then do
    let first := context.pc
    let context ← body context
    let jump := context.pc
    let context ← emit context (.jump none)
    let second := context.pc
    let context := context.fill jump (.jump (some split))
    .ok (context.fill split (splitOf greedy (some first) (some second)))
  else .ok (context.fill split (splitOf greedy last (some context.pc)))

end Loops

def compileContext : Node → CompileContext → C CompileContext
  | .epsilon, context => .ok context
  | .character ch, context => emit context (.character ch)
  | .anyCharacter, context => emit context .anyCharacter
  | .characterClass text, context => do
      let klass ← compileCharClass text
      emit context (.characterClass klass)
  | .characterClassNegated text, context => do
      let klass ← compileCharClass text
      emit context (.characterClassNegated klass)
  | .concatenation left right, context => do
      let context ← compileContext left context
      compileContext right context
  | .alternation left right, context => do
      let split := context.pc
      let context ← emit context (.split none none)
      let first := context.pc
      let context ← compileContext left context
      let jump := context.pc
      let context ← emit context (.jump none)
      let second := context.pc
      let context ← compileContext right context
      let context := context.fill split (.split (some first) (some second))
      .ok (context.fill jump (.jump (some context.pc)))
  | .quantifier nmin nmax greedy quantified, context => do
      let ncaptures := context.ncaptures
      let (context, last) ←
        compileCopies (compileContext quantified) ncaptures nmin.toNat none context
      if nmax > nmin then
        compileOptionals (compileContext quantified) ncaptures greedy (nmax - nmin).toNat context
      else if nmax = -1 then
        compileUnbounded (compileContext quantified) greedy nmin last context
      else .ok context
  | .anchorBegin, context => emit context .assertBegin
  | .anchorEnd, context => emit context .assertEnd
  | .capture captured, context => do
      let capture := context.ncaptures * 2
      let context ← emit { context with ncaptures := context.ncaptures + 1 } (.save capture)
      let context ← compileContext captured context
      emit context (.save (capture + 1))

/-- `.*?`, which is put in front unless the pattern begins with `^` -/
def lazyLead : Node := .quantifier 0 (-1) false .anyCharacter

/-- What `compile_node_with_program` makes of the pattern before it compiles it -/
def wrapRoot (root : Node) : Node :=
  if nodeIsAnchored (.capture root) then .capture root
  else .concatenation lazyLead (.capture root)

/-- `cregex_compile_node`: `none` where there is no block. A negative estimate is a size
that no block has; where it is not negative there is memory for it. -/
def cregexCompileNode (root : Node) : C (Option (List Instr)) :=
  if estimateInstructions root < 0 then .ok none
  else do
    let context ← compileContext (wrapRoot root)
      ⟨(estimateInstructions root).toNat, [], 0, Nat.zero_le _⟩
    let context ← emit context .matched
    .ok (some context.instructions)

/-! ## The program at once -/

/-- What the parser makes: a class that has its bracket, and bounds that are
in order. -/
def Node.Sound : Node → Prop
  | .epsilon | .character _ | .anyCharacter | .anchorBegin | .anchorEnd => True
  | .characterClass text | .characterClassNegated text =>
      ∃ rs rest, ClassText true text rs rest
  | .concatenation left right | .alternation left right => left.Sound ∧ right.Sound
  | .quantifier nmin nmax _ quantified =>
      0 ≤ nmin ∧ (nmax = -1 ∨ nmin ≤ nmax) ∧ quantified.Sound
  | .capture captured => captured.Sound

/-- The bitmap of a class text -/
def classOf (text : List UInt8) : CharClass :=
  match compileCharClass text with
  | .ok klass => klass
  | .error _ => fun _ => 0

/-- The captures that compiling a node counts. The copies of what is quantified
count them once. -/
def Node.captures : Node → ℕ
  | .epsilon | .character _ | .anyCharacter | .anchorBegin | .anchorEnd => 0
  | .characterClass _ | .characterClassNegated _ => 0
  | .concatenation left right | .alternation left right => left.captures + right.captures
  | .quantifier nmin nmax _ quantified =>
      if nmin = 0 ∧ nmax = 0 then 0 else quantified.captures
  | .capture captured => captured.captures + 1

def Node.size : Node → ℕ
  | .epsilon => 0
  | .character _ | .anyCharacter | .characterClass _ | .characterClassNegated _ => 1
  | .concatenation left right => left.size + right.size
  | .alternation left right => 1 + left.size + 1 + right.size
  | .quantifier nmin nmax _ quantified =>
      nmin.toNat * quantified.size +
        if nmax > nmin then (nmax - nmin).toNat * (quantified.size + 1)
        else if nmax = -1 then (if nmin = 0 then quantified.size + 2 else 1)
        else 0
  | .anchorBegin | .anchorEnd => 1
  | .capture captured => 1 + captured.size + 1

/-- `n` copies, each behind the other -/
def copies (body : ℕ → List Instr) (size : ℕ) : ℕ → ℕ → List Instr
  | 0, _ => []
  | n + 1, pc => body pc ++ copies body size n (pc + size)

/-- `n` copies that can be passed over, each behind the other -/
def optionals (body : ℕ → List Instr) (size : ℕ) (greedy : Bool) : ℕ → ℕ → List Instr
  | 0, _ => []
  | n + 1, pc =>
      splitOf greedy (some (pc + 1)) (some (pc + 1 + size)) :: (body (pc + 1) ++
        optionals body size greedy n (pc + 1 + size))

/-- A copy that is gone through any number of times -/
def star (body : ℕ → List Instr) (size : ℕ) (greedy : Bool) (pc : ℕ) : List Instr :=
  splitOf greedy (some (pc + 1)) (some (pc + 1 + size + 1)) :: (body (pc + 1) ++
    [.jump (some pc)])

/-- The instructions of a node that begins at `pc` behind `ncaptures` captures -/
def Node.code : Node → (pc ncaptures : ℕ) → List Instr
  | .epsilon, _, _ => []
  | .character ch, _, _ => [.character ch]
  | .anyCharacter, _, _ => [.anyCharacter]
  | .characterClass text, _, _ => [.characterClass (classOf text)]
  | .characterClassNegated text, _, _ => [.characterClassNegated (classOf text)]
  | .concatenation left right, pc, ncaptures =>
      left.code pc ncaptures ++ right.code (pc + left.size) (ncaptures + left.captures)
  | .alternation left right, pc, ncaptures =>
      .split (some (pc + 1)) (some (pc + 1 + left.size + 1)) ::
        (left.code (pc + 1) ncaptures ++
          .jump (some (pc + 1 + left.size + 1 + right.size)) ::
            right.code (pc + 1 + left.size + 1) (ncaptures + left.captures))
  | .quantifier nmin nmax greedy quantified, pc, ncaptures =>
      copies (quantified.code · ncaptures) quantified.size nmin.toNat pc ++
        if nmax > nmin then
          optionals (quantified.code · ncaptures) quantified.size greedy (nmax - nmin).toNat
            (pc + nmin.toNat * quantified.size)
        else if nmax = -1 then
          if nmin = 0 then star (quantified.code · ncaptures) quantified.size greedy pc
          else [splitOf greedy (some (pc + (nmin.toNat - 1) * quantified.size))
            (some (pc + nmin.toNat * quantified.size + 1))]
        else []
  | .anchorBegin, _, _ => [.assertBegin]
  | .anchorEnd, _, _ => [.assertEnd]
  | .capture captured, pc, ncaptures =>
      .save (ncaptures * 2) :: (captured.code (pc + 1) (ncaptures + 1) ++
        [.save (ncaptures * 2 + 1)])

/-! ## The walk appends it -/

section Lengths

variable {body : ℕ → List Instr} {size : ℕ}

theorem copies_length (h : ∀ pc, (body pc).length = size) :
    ∀ n pc, (copies body size n pc).length = n * size
  | 0, _ => by rw [copies, List.length_nil, Nat.zero_mul]
  | n + 1, pc => by
      rw [copies, List.length_append, h, copies_length h n, Nat.succ_mul, Nat.add_comm]

theorem optionals_length (h : ∀ pc, (body pc).length = size) (greedy : Bool) :
    ∀ n pc, (optionals body size greedy n pc).length = n * (size + 1)
  | 0, _ => by rw [optionals, List.length_nil, Nat.zero_mul]
  | n + 1, pc => by
      rw [optionals, List.length_cons, List.length_append, h, optionals_length h greedy n,
        Nat.succ_mul]
      omega

theorem star_length (h : ∀ pc, (body pc).length = size) (greedy : Bool) (pc : ℕ) :
    (star body size greedy pc).length = size + 2 := by
  rw [star, List.length_cons, List.length_append, h, List.length_singleton]

end Lengths

theorem Node.code_length : ∀ (n : Node) (pc ncaptures : ℕ), (n.code pc ncaptures).length = n.size
  | .epsilon, _, _ => rfl
  | .character _, _, _ => rfl
  | .anyCharacter, _, _ => rfl
  | .characterClass _, _, _ => rfl
  | .characterClassNegated _, _, _ => rfl
  | .concatenation left right, pc, ncaptures => by
      rw [code, size, List.length_append, code_length left, code_length right]
  | .alternation left right, pc, ncaptures => by
      rw [code, size, List.length_cons, List.length_append, List.length_cons, code_length left,
        code_length right]
      omega
  | .quantifier nmin nmax greedy quantified, pc, ncaptures => by
      have hbody : ∀ pc, (quantified.code pc ncaptures).length = quantified.size :=
        fun pc => code_length quantified pc ncaptures
      rw [code, size, List.length_append, copies_length hbody]
      congr 1
      split
      · rw [optionals_length hbody]
      · split
        · split
          · rw [star_length hbody]
          · rfl
        · rfl
  | .anchorBegin, _, _ => rfl
  | .anchorEnd, _, _ => rfl
  | .capture captured, pc, ncaptures => by
      rw [code, size, List.length_cons, List.length_append, code_length captured,
        List.length_singleton]
      omega

theorem set_append_cons {α : Type} (front : List α) (x y : α) (rest : List α) :
    (front ++ x :: rest).set front.length y = front ++ y :: rest := by
  rw [List.set_append_right _ _ (Nat.le_refl _), Nat.sub_self, List.set_cons_zero]

namespace CompileContext

variable {context : CompileContext} {code code' : List Instr} {n n' : ℕ}

def behind (context : CompileContext) (code : List Instr) (n : ℕ)
    (h : context.pc + code.length ≤ context.room) : CompileContext where
  room := context.room
  instructions := context.instructions ++ code
  ncaptures := n
  fits := by
    rw [List.length_append]
    exact h

/-- Code is written where the block has room for it. -/
def write (context : CompileContext) (code : List Instr) (n : ℕ) : C CompileContext :=
  if h : context.pc + code.length ≤ context.room then .ok (context.behind code n h)
  else .error .outOfBounds

@[simp] theorem behind_pc (h : context.pc + code.length ≤ context.room) :
    (context.behind code n h).pc = context.pc + code.length := List.length_append

@[simp] theorem behind_ncaptures (h : context.pc + code.length ≤ context.room) :
    (context.behind code n h).ncaptures = n := rfl

@[simp] theorem fill_pc (pc : ℕ) (instr : Instr) : (context.fill pc instr).pc = context.pc :=
  List.length_set

theorem behind_behind (h : context.pc + code.length ≤ context.room)
    (h' : (context.behind code n h).pc + code'.length ≤ context.room)
    (h'' : context.pc + (code ++ code').length ≤ context.room) :
    (context.behind code n h).behind code' n' h' = context.behind (code ++ code') n' h'' := by
  simp only [behind, List.append_assoc]

theorem write_of_le (h : context.pc + code.length ≤ context.room) :
    context.write code n = .ok (context.behind code n h) := dif_pos h

theorem write_nil : context.write [] context.ncaptures = .ok context := by
  rw [write_of_le (show context.pc + ([] : List Instr).length ≤ context.room from context.fits)]
  simp only [behind, List.append_nil]

theorem emit_eq_write (instr : Instr) :
    context.emit instr = context.write [instr] context.ncaptures := rfl

theorem behind_write (h : context.pc + code.length ≤ context.room) :
    (context.behind code n h).write code' n' = context.write (code ++ code') n' := by
  have hroom : (context.behind code n h).pc + code'.length ≤ (context.behind code n h).room ↔
      context.pc + (code ++ code').length ≤ context.room := by
    rw [behind_pc, Nat.add_assoc, ← List.length_append]
    rfl
  by_cases h' : context.pc + (code ++ code').length ≤ context.room
  · rw [write_of_le h', write_of_le (hroom.mpr h'), behind_behind h (hroom.mpr h') h']
  · rw [write, write, dif_neg h', dif_neg fun hrest => h' (hroom.mp hrest)]

/-- An instruction of the code is filled in. -/
theorem behind_fill (h : context.pc + code.length ≤ context.room) {i k : ℕ} {instr : Instr}
    (hi : i = context.pc + k) (hset : code.set k instr = code') :
    (context.behind code n h).fill i instr = context.behind code' n (by
      rw [← hset, List.length_set]
      exact h) := by
  subst hi hset
  have hcode : (context.instructions ++ code).set (context.instructions.length + k) instr =
      context.instructions ++ code.set k instr := by
    rw [List.set_append_right _ _ (Nat.le_add_right _ k), Nat.add_sub_cancel_left]
  simp only [fill, behind, pc, hcode]

/-- What goes on behind some code is what writes more of it: either both find room, or
none does. -/
theorem write_bind {β : Type} {k k' : CompileContext → C β} (hle : code.length ≤ code'.length)
    (h : ∀ hfit, k (context.behind code n hfit) = context.write code' n' >>= k') :
    (context.write code n >>= k) = context.write code' n' >>= k' := by
  by_cases hfit : context.pc + code.length ≤ context.room
  · rw [write_of_le hfit, C.ok_bind, h hfit]
  · have hfit' : ¬context.pc + code'.length ≤ context.room := fun h' => hfit (by omega)
    rw [write, write, dif_neg hfit, dif_neg hfit']
    rfl

theorem write_bind_write {k : CompileContext → C CompileContext}
    (hle : code.length ≤ code'.length)
    (h : ∀ hfit, k (context.behind code n hfit) = context.write code' n') :
    (context.write code n >>= k) = context.write code' n' := by
  have hright : context.write code' n' = context.write code' n' >>= Except.ok :=
    (bind_pure _).symm
  rw [hright]
  exact write_bind hle fun hfit => (h hfit).trans hright

end CompileContext

/-- What a walk appends, and the captures that it counts. -/
def Appends (body : CompileContext → C CompileContext) (code : (pc ncaptures : ℕ) → List Instr)
    (captures : ℕ) : Prop :=
  ∀ context, body context =
    context.write (code context.pc context.ncaptures) (context.ncaptures + captures)

section Walk

variable {body : CompileContext → C CompileContext} {code : (pc ncaptures : ℕ) → List Instr}
  {size captures : ℕ}

/-- Each copy begins with the captures that the first one begins with. -/
theorem Appends.copies (h : Appends body code captures)
    (hsize : ∀ pc ncaptures, (code pc ncaptures).length = size) (ncaptures : ℕ) :
    ∀ (n : ℕ) (last : Option ℕ) (context : CompileContext),
      compileCopies body ncaptures n last context =
        context.write (Regex.copies (code · ncaptures) size n context.pc)
          (if n = 0 then context.ncaptures else ncaptures + captures) >>= fun written =>
            .ok (written, if n = 0 then last else some (context.pc + (n - 1) * size))
  | 0, last, context => by
      rw [compileCopies, Regex.copies, if_pos rfl, write_nil, C.ok_bind, if_pos rfl]
  | n + 1, last, context => by
      have hbody : body { context with ncaptures := ncaptures } =
          context.write (code context.pc ncaptures) (ncaptures + captures) := h _
      rw [compileCopies, hbody]
      refine write_bind ?_ fun hfit => ?_
      · rw [Regex.copies, List.length_append]
        exact Nat.le_add_right _ _
      · rw [h.copies hsize ncaptures n, behind_write, behind_pc, hsize, Regex.copies]
        cases n with
        | zero => simp only [if_true, Nat.zero_add, Nat.one_ne_zero, if_false, Nat.sub_self,
            Nat.zero_mul, Nat.add_zero, behind_ncaptures]
        | succ n =>
            have hlast : context.pc + size + (n + 1 - 1) * size =
                context.pc + (n + 1 + 1 - 1) * size := by
              rw [Nat.add_sub_cancel, Nat.add_sub_cancel, Nat.succ_mul]
              omega
            simp only [Nat.succ_ne_zero, if_false, hlast]

theorem Appends.optionals (h : Appends body code captures)
    (hsize : ∀ pc ncaptures, (code pc ncaptures).length = size) (ncaptures : ℕ) (greedy : Bool) :
    ∀ (n : ℕ) (context : CompileContext),
      compileOptionals body ncaptures greedy n context =
        context.write (Regex.optionals (code · ncaptures) size greedy n context.pc)
          (if n = 0 then context.ncaptures else ncaptures + captures)
  | 0, context => by
      rw [compileOptionals, Regex.optionals, if_pos rfl, write_nil]
  | n + 1, context => by
      have hemit : emit { context with ncaptures := ncaptures } (.split none none) =
          context.write [.split none none] ncaptures := rfl
      rw [compileOptionals, hemit, Regex.optionals, if_neg (Nat.succ_ne_zero n)]
      refine write_bind_write ?_ fun hsplit => ?_
      · rw [List.length_cons, List.length_cons]
        exact Nat.succ_le_succ (Nat.zero_le _)
      rw [h, behind_write, behind_pc, behind_ncaptures, List.length_singleton,
        List.singleton_append]
      refine write_bind_write ?_ fun hbody => ?_
      · rw [List.length_cons, List.length_cons, List.length_append]
        omega
      have hpc : ∀ instr : Instr, context.pc + (instr :: code (context.pc + 1) ncaptures).length =
          context.pc + 1 + size := by
        intro instr
        rw [List.length_cons, hsize]
        omega
      dsimp only
      rw [behind_pc, hpc, behind_fill hbody (Nat.add_zero _).symm List.set_cons_zero,
        h.optionals hsize ncaptures greedy n, behind_write, behind_pc, behind_ncaptures, hpc,
        ite_self, List.cons_append]

theorem Appends.unbounded (h : Appends body code captures)
    (hsize : ∀ pc ncaptures, (code pc ncaptures).length = size) (greedy : Bool) (nmin : ℤ)
    (last : Option ℕ) (context : CompileContext) :
    compileUnbounded body greedy nmin last context =
      if nmin = 0 then
        context.write (star (code · context.ncaptures) size greedy context.pc)
          (context.ncaptures + captures)
      else
        context.write [splitOf greedy last (some (context.pc + 1))] context.ncaptures := by
  rw [compileUnbounded, emit_eq_write]
  by_cases hzero : nmin = 0
  · simp only [if_pos hzero]
    rw [star]
    refine write_bind_write ?_ fun hsplit => ?_
    · rw [List.length_cons, List.length_cons]
      exact Nat.succ_le_succ (Nat.zero_le _)
    rw [h, behind_write, behind_pc, behind_ncaptures, List.length_singleton,
      List.singleton_append]
    refine write_bind_write ?_ fun hbody => ?_
    · rw [List.length_cons, List.length_cons, List.length_append]
      omega
    rw [emit_eq_write, behind_write, behind_ncaptures, List.cons_append]
    refine write_bind_write ?_ fun hjump => ?_
    · rw [List.length_cons, List.length_cons, List.length_append, List.length_append]
      exact Nat.le_refl _
    have hpc : context.pc + (Instr.split none none :: code (context.pc + 1)
        context.ncaptures).length = context.pc + (1 + size) := by
      rw [List.length_cons, hsize]
      omega
    have hend : context.pc + (Instr.split none none :: (code (context.pc + 1)
        context.ncaptures ++ [Instr.jump none])).length = context.pc + 1 + size + 1 := by
      rw [List.length_cons, List.length_append, hsize, List.length_singleton]
      omega
    have hset : (Instr.split none none :: (code (context.pc + 1) context.ncaptures ++
        [Instr.jump none])).set (1 + size) (.jump (some context.pc)) =
          .split none none :: (code (context.pc + 1) context.ncaptures ++
            [.jump (some context.pc)]) := by
      rw [Nat.add_comm 1, List.set_cons_succ, ← hsize (context.pc + 1) context.ncaptures,
        set_append_cons]
    rw [behind_pc, behind_pc, hpc, hend, behind_fill hjump rfl hset,
      behind_fill _ (Nat.add_zero _).symm List.set_cons_zero, write_of_le]
  · simp only [if_neg hzero]
    refine write_bind_write (Nat.le_refl _) fun hsplit => ?_
    rw [behind_pc, List.length_singleton,
      behind_fill hsplit (Nat.add_zero _).symm List.set_cons_zero, write_of_le]

end Walk

theorem classOf_eq {text : List UInt8} (h : ∃ rs rest, ClassText true text rs rest) :
    compileCharClass text = .ok (classOf text) := by
  obtain ⟨rs, rest, h⟩ := h
  obtain ⟨klass, hrun, -⟩ := compileCharClass_eq h
  rw [classOf, hrun]

/-- One of two codes, each of which the walk appends -/
theorem compileContext_alternation {left right : Node}
    (hleft : Appends (compileContext left) left.code left.captures)
    (hright : Appends (compileContext right) right.code right.captures) :
    Appends (compileContext (.alternation left right)) (Node.alternation left right).code
      (Node.alternation left right).captures := by
  intro context
  rw [compileContext, emit_eq_write, Node.code, Node.captures]
  refine write_bind_write ?_ fun hsplit => ?_
  · rw [List.length_cons, List.length_cons]
    exact Nat.succ_le_succ (Nat.zero_le _)
  rw [hleft, behind_write, behind_pc, behind_ncaptures, List.length_singleton,
    List.singleton_append]
  refine write_bind_write ?_ fun hfront => ?_
  · rw [List.length_cons, List.length_cons, List.length_append]
    omega
  rw [emit_eq_write, behind_write, behind_ncaptures, List.cons_append]
  refine write_bind_write ?_ fun hjump => ?_
  · simp only [List.length_cons, List.length_append, List.length_nil]
    omega
  have hfirst : context.pc + (Instr.split none none :: left.code (context.pc + 1)
      context.ncaptures).length = context.pc + (1 + left.size) := by
    rw [List.length_cons, Node.code_length]
    omega
  have hsecond : context.pc + (Instr.split none none :: (left.code (context.pc + 1)
      context.ncaptures ++ [Instr.jump none])).length = context.pc + 1 + left.size + 1 := by
    rw [List.length_cons, List.length_append, Node.code_length, List.length_singleton]
    omega
  rw [hright, behind_write, behind_pc, behind_pc, behind_ncaptures, hfirst, hsecond,
    Nat.add_assoc context.ncaptures, List.cons_append, List.append_assoc, List.singleton_append]
  refine write_bind_write ?_ fun hback => ?_
  · simp only [List.length_cons, List.length_append]
    exact Nat.le_refl _
  have hset : ∀ split target : Instr, (split :: (left.code (context.pc + 1) context.ncaptures ++
      Instr.jump none :: right.code (context.pc + 1 + left.size + 1)
        (context.ncaptures + left.captures))).set (1 + left.size) target =
      split :: (left.code (context.pc + 1) context.ncaptures ++
        target :: right.code (context.pc + 1 + left.size + 1)
          (context.ncaptures + left.captures)) := by
    intro split target
    rw [Nat.add_comm 1, List.set_cons_succ, ← left.code_length (context.pc + 1) context.ncaptures,
      set_append_cons]
  have hend : context.pc + (Instr.split none none :: (left.code (context.pc + 1)
      context.ncaptures ++ Instr.jump none :: right.code (context.pc + 1 + left.size + 1)
        (context.ncaptures + left.captures))).length =
      context.pc + 1 + left.size + 1 + right.size := by
    simp only [List.length_cons, List.length_append, Node.code_length]
    omega
  dsimp only
  rw [fill_pc, behind_pc, hend, behind_fill hback (Nat.add_zero _).symm List.set_cons_zero,
    behind_fill _ rfl (hset _ _), write_of_le]

/-- As many copies as the bounds of the quantifier say -/
theorem compileContext_quantifier {nmin nmax : ℤ} {greedy : Bool} {quantified : Node}
    (hmin : 0 ≤ nmin) (hmax : nmax = -1 ∨ nmin ≤ nmax)
    (hbody : Appends (compileContext quantified) quantified.code quantified.captures) :
    Appends (compileContext (.quantifier nmin nmax greedy quantified))
      (Node.quantifier nmin nmax greedy quantified).code
      (Node.quantifier nmin nmax greedy quantified).captures := by
  intro context
  have hsize : ∀ pc ncaptures, (quantified.code pc ncaptures).length = quantified.size :=
    quantified.code_length
  have hlength : (copies (quantified.code · context.ncaptures) quantified.size nmin.toNat
      context.pc).length = nmin.toNat * quantified.size :=
    copies_length (fun pc => hsize pc _) _ _
  rw [compileContext]
  dsimp only
  rw [hbody.copies hsize, bind_assoc, Node.code, Node.captures]
  refine write_bind_write ?_ fun hcopies => ?_
  · rw [List.length_append]
    exact Nat.le_add_right _ _
  rw [C.ok_bind]
  dsimp only
  by_cases hoptional : nmax > nmin
  · have hturns : (nmax - nmin).toNat ≠ 0 := by omega
    have hcounts : ¬(nmin = 0 ∧ nmax = 0) := by omega
    rw [if_pos hoptional, if_pos hoptional, hbody.optionals hsize, if_neg hturns,
      if_neg hcounts, behind_write, behind_pc, hlength]
  · rw [if_neg hoptional, if_neg hoptional]
    by_cases hunbounded : nmax = -1
    · have hcounts : ¬(nmin = 0 ∧ nmax = 0) := by omega
      rw [if_pos hunbounded, if_pos hunbounded, hbody.unbounded hsize, if_neg hcounts,
        behind_write, behind_write, behind_pc, hlength, behind_ncaptures]
      by_cases hzero : nmin = 0
      · subst hzero
        rw [if_pos rfl, if_pos rfl, Int.toNat_zero, if_pos rfl, Nat.zero_mul, Nat.add_zero]
      · have hpos : nmin.toNat ≠ 0 := by omega
        rw [if_neg hzero, if_neg hzero, if_neg hpos, if_neg hpos]
    · have hexact : nmin.toNat = 0 ↔ nmin = 0 ∧ nmax = 0 := by omega
      have hcaptures : (if nmin.toNat = 0 then context.ncaptures
          else context.ncaptures + quantified.captures) =
            context.ncaptures + if nmin = 0 ∧ nmax = 0 then 0 else quantified.captures := by
        by_cases hzero : nmin.toNat = 0
        · rw [if_pos hzero, if_pos (hexact.mp hzero), Nat.add_zero]
        · rw [if_neg hzero, if_neg fun h => hzero (hexact.mpr h)]
      rw [if_neg hunbounded, if_neg hunbounded, ← write_of_le, hcaptures, List.append_nil]

/-- The walk appends the code of the node. -/
theorem compileContext_eq : ∀ {n : Node}, n.Sound →
    Appends (compileContext n) n.code n.captures
  | .epsilon, _ => fun _ => write_nil.symm
  | .character _, _ => fun _ => rfl
  | .anyCharacter, _ => fun _ => rfl
  | .characterClass text, h => by
      intro context
      rw [compileContext, classOf_eq h]
      rfl
  | .characterClassNegated text, h => by
      intro context
      rw [compileContext, classOf_eq h]
      rfl
  | .concatenation left right, h => by
      intro context
      rw [compileContext, compileContext_eq h.1, Node.code, Node.captures]
      refine write_bind_write ?_ fun hleft => ?_
      · rw [List.length_append]
        exact Nat.le_add_right _ _
      · rw [compileContext_eq h.2, behind_write, behind_pc, behind_ncaptures, Node.code_length,
          Nat.add_assoc]
  | .alternation _ _, h =>
      compileContext_alternation (compileContext_eq h.1) (compileContext_eq h.2)
  | .quantifier _ _ _ _, h =>
      compileContext_quantifier h.1 h.2.1 (compileContext_eq h.2.2)
  | .anchorBegin, _ => fun _ => rfl
  | .anchorEnd, _ => fun _ => rfl
  | .capture captured, h => by
      intro context
      have hemit : emit { context with ncaptures := context.ncaptures + 1 }
          (.save (context.ncaptures * 2)) =
            context.write [.save (context.ncaptures * 2)] (context.ncaptures + 1) := rfl
      rw [compileContext, hemit, Node.code, Node.captures]
      refine write_bind_write ?_ fun hfirst => ?_
      · rw [List.length_cons, List.length_cons]
        exact Nat.succ_le_succ (Nat.zero_le _)
      rw [compileContext_eq (n := captured) h, behind_write, behind_pc, behind_ncaptures,
        List.length_singleton, List.singleton_append]
      refine write_bind_write ?_ fun hcaptured => ?_
      · rw [List.length_cons, List.length_cons, List.length_append]
        omega
      · rw [emit_eq_write, behind_write, behind_ncaptures, List.cons_append, Nat.add_assoc,
          Nat.add_comm 1]

/-! ## It is as long as was counted -/

theorem int32_modEq (x : ℤ) : int32 x ≡ x [ZMOD 2 ^ 32] := Int.bmod_emod

/-- The count wraps where an `int` does, and is the size up to that. -/
theorem countInstructions_modEq : ∀ {n : Node}, n.Sound →
    countInstructions n ≡ n.size [ZMOD 2 ^ 32]
  | .epsilon, _ => .refl _
  | .character _, _ => .refl _
  | .anyCharacter, _ => .refl _
  | .characterClass _, _ => .refl _
  | .characterClassNegated _, _ => .refl _
  | .concatenation left right, h => by
      rw [countInstructions, Node.size, Nat.cast_add]
      exact (int32_modEq _).trans
        ((countInstructions_modEq h.1).add (countInstructions_modEq h.2))
  | .alternation left right, h => by
      have hsize : ((Node.alternation left right).size : ℤ) = 2 + left.size + right.size := by
        rw [Node.size]
        push_cast
        omega
      rw [countInstructions, hsize]
      exact (int32_modEq _).trans (((int32_modEq _).trans
        ((countInstructions_modEq h.1).add_left 2)).add (countInstructions_modEq h.2))
  | .quantifier nmin nmax greedy quantified, h => by
      obtain ⟨hmin, hmax, hsound⟩ := h
      have ih := countInstructions_modEq hsound
      have hnmin : ((nmin.toNat : ℕ) : ℤ) = nmin := Int.toNat_of_nonneg hmin
      rw [countInstructions]
      by_cases hge : nmax ≥ nmin
      · have hsize : ((Node.quantifier nmin nmax greedy quantified).size : ℤ) =
            nmin * quantified.size + (nmax - nmin) * (quantified.size + 1) := by
          have hoptional : ((nmax - nmin).toNat : ℤ) = nmax - nmin :=
            Int.toNat_of_nonneg (by omega)
          rw [Node.size, Nat.cast_add, Nat.cast_mul, hnmin]
          congr 1
          by_cases hlt : nmax > nmin
          · rw [if_pos hlt, Nat.cast_mul, hoptional, Nat.cast_succ]
          · have heq : nmax - nmin = 0 := by omega
            have hne : nmax ≠ -1 := by omega
            rw [if_neg hlt, if_neg hne, heq, zero_mul]
            rfl
        simp only [if_pos hge]
        rw [hsize]
        exact (int32_modEq _).trans (((int32_modEq _).trans (ih.mul_left nmin)).add
          ((int32_modEq _).trans ((int32_modEq _).mul
            ((int32_modEq _).trans (ih.add_right 1)))))
      · have hunbounded : nmax = -1 := hmax.resolve_right hge
        have hlt : ¬nmax > nmin := by omega
        simp only [if_neg hge]
        refine (int32_modEq _).trans ?_
        by_cases hzero : nmin = 0
        · have hsize : ((Node.quantifier nmin nmax greedy quantified).size : ℤ) =
              1 + (quantified.size + 1) := by
            rw [Node.size, if_neg hlt, if_pos hunbounded, if_pos hzero, hzero, Int.toNat_zero,
              Nat.zero_mul]
            push_cast
            omega
          rw [if_neg (not_not.mpr hzero), hsize]
          exact ((int32_modEq _).trans (ih.add_right 1)).add_left 1
        · have hsize : ((Node.quantifier nmin nmax greedy quantified).size : ℤ) =
              1 + nmin * quantified.size := by
            rw [Node.size, if_neg hlt, if_pos hunbounded, if_neg hzero, Nat.cast_add,
              Nat.cast_mul, hnmin, Nat.cast_one, add_comm]
          rw [if_pos hzero, hsize]
          exact ((int32_modEq _).trans (ih.mul_left nmin)).add_left 1
  | .anchorBegin, _ => .refl _
  | .anchorEnd, _ => .refl _
  | .capture captured, h => by
      have hsize : ((Node.capture captured).size : ℤ) = 2 + captured.size := by
        rw [Node.size]
        push_cast
        omega
      rw [countInstructions, hsize]
      exact (int32_modEq _).trans ((countInstructions_modEq (n := captured) h).add_left 2)

theorem wrapRoot_sound {root : Node} (h : root.Sound) : (wrapRoot root).Sound := by
  rw [wrapRoot]
  split
  · exact h
  · exact ⟨⟨le_rfl, .inl rfl, trivial⟩, h⟩

def program (root : Node) : List Instr := (wrapRoot root).code 0 0 ++ [.matched]

theorem program_length (root : Node) : ((program root).length : ℤ) =
    root.size + (if nodeIsAnchored root then 0 else 1) * 3 + 2 + 1 := by
  rw [program, List.length_append, Node.code_length, List.length_singleton, wrapRoot,
    nodeIsAnchored]
  split
  · rw [Node.size]
    push_cast
    omega
  · rw [Node.size, Node.size, lazyLead]
    simp only [Node.size]
    norm_num
    omega

theorem int32_eq_of_modEq {x y : ℤ} (h : x ≡ y [ZMOD 2 ^ 32]) : int32 x = int32 y := by
  have hmod : x % ((2 ^ 32 : ℕ) : ℤ) = y % ((2 ^ 32 : ℕ) : ℤ) := h
  rw [int32, int32, ← Int.emod_bmod, hmod, Int.emod_bmod]

/-- The estimate is the length of the program, as an `int` says it. -/
theorem estimateInstructions_eq {root : Node} (h : root.Sound) :
    estimateInstructions root = int32 (program root).length := by
  refine int32_eq_of_modEq ?_
  rw [program_length]
  exact ((int32_modEq _).trans (((int32_modEq _).trans
    ((countInstructions_modEq h).add_right _)).add_right 2)).add_right 1

/-- The program is written if the block that is estimated has room for it. -/
theorem cregexCompileNode_eq {root : Node} (h : root.Sound)
    (hestimate : 0 ≤ estimateInstructions root) :
    cregexCompileNode root =
      if (program root).length ≤ (estimateInstructions root).toNat then .ok (some (program root))
      else .error .outOfBounds := by
  have hwalk := compileContext_eq (wrapRoot_sound h)
    ⟨(estimateInstructions root).toNat, [], 0, Nat.zero_le _⟩
  have hwhole : ∀ (context : CompileContext) (code : List Instr) (n : ℕ),
      (context.write code n >>= fun context => do
        let context ← emit context .matched
        .ok (some context.instructions)) =
      context.write (code ++ [.matched]) n >>= fun context => .ok (some context.instructions) := by
    intro context code n
    refine write_bind ?_ fun hfit => ?_
    · rw [List.length_append]
      exact Nat.le_add_right _ _
    · rw [emit_eq_write, behind_write]
      rfl
  have hroom : (CompileContext.mk (estimateInstructions root).toNat [] 0 (Nat.zero_le _)).pc +
      (program root).length ≤ (estimateInstructions root).toNat ↔
        (program root).length ≤ (estimateInstructions root).toNat :=
    iff_of_eq (congrArg (· ≤ _) (Nat.zero_add _))
  rw [cregexCompileNode, if_neg (not_lt.mpr hestimate), hwalk, hwhole]
  by_cases hfits : (program root).length ≤ (estimateInstructions root).toNat
  · rw [if_pos hfits]
    refine (congrArg (· >>= _) (write_of_le (hroom.mpr hfits))).trans ?_
    rfl
  · rw [if_neg hfits]
    refine (congrArg (· >>= _) (dif_neg fun h => hfits (hroom.mp h))).trans ?_
    rfl

/-- The compiler writes as many instructions as it has asked memory for, unless
there are more than an `int` can count. -/
theorem cregexCompileNode_fits {root : Node} (h : root.Sound)
    (hfits : (program root).length < 2 ^ 31) :
    cregexCompileNode root = .ok (some (program root)) ∧
      estimateInstructions root = (program root).length := by
  have hestimate : estimateInstructions root = (program root).length := by
    rw [estimateInstructions_eq h, int32, Int.bmod_eq_of_le (by omega) (by omega)]
  refine ⟨?_, hestimate⟩
  rw [cregexCompileNode_eq h (by omega), hestimate, Int.toNat_natCast, if_pos le_rfl]

/-- A program that an `int` cannot count is not compiled, or is written past the end of the
block. -/
theorem cregexCompileNode_overruns {root : Node} (h : root.Sound)
    (hlong : 2 ^ 31 ≤ (program root).length) :
    cregexCompileNode root =
      if int32 (program root).length < 0 then .ok none else .error .outOfBounds := by
  have hestimate := estimateInstructions_eq h
  have hlt : int32 (program root).length < 2 ^ 31 :=
    Int.bmod_lt (x := ((program root).length : ℤ)) (m := 2 ^ 32) (by decide)
  by_cases hneg : int32 (program root).length < 0
  · rw [if_pos hneg, cregexCompileNode, if_pos (hestimate ▸ hneg)]
  · rw [if_neg hneg, cregexCompileNode_eq h (by omega), if_neg (by omega)]

/-- `a{65536}{65536}` has `2 ^ 32 + 6` instructions, of which 6 are counted. -/
example : estimateInstructions
    (.quantifier 65536 65536 true (.quantifier 65536 65536 true (.character 97))) = 6 := by
  decide

end Nawam.Regex
