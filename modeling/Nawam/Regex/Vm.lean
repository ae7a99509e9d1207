import Nawam.Base.PrioritySearch
import Nawam.Regex.Compile

/-!
# Running a program on a string

The virtual machine goes over the string once. It keeps the threads that are
waiting for the next character in an array in the order of their priority, and
marks in the same array which instructions it has come by at this position, so
that no instruction has two threads. A thread that matches cuts off those behind
it.

`moves` is the graph of the places that a thread can be at. `vmRun_eq_search`
says that the machine finds what a search of that graph finds which goes depth
first and prefers the first way of a split: what a backtracking matcher does.
-/

namespace Nawam.Regex

open Priority

/-- Where the captures begin and end: `none` for a null pointer -/
abbrev Matches : Type := List (Option ℕ)

def maxMatches : ℕ := 64

/-- `vm_thread`. Of the matches there are those that are copied. `visited` is taken not to
wrap: a string is shorter than an `int` can say. -/
structure VmThread where
  visited : ℕ
  pc : ℕ
  «matches» : Matches

structure VmThreadList where
  nthreads : ℕ
  threads : List VmThread

def savedMatches (nmatches : ℕ) : ℕ := if nmatches ≤ maxMatches then nmatches else maxMatches

def pointedTo (p : Option ℕ) : C ℕ :=
  match p with
  | some i => .ok i
  | none => .error .outOfBounds

/-- Whether a character lets a thread through. The other opcodes have no thread. -/
def passes : Instr → UInt8 → Option Bool
  | .character ch, c => some (c == ch)
  | .anyCharacter, c => some (c != Ascii.nul)
  | .characterClass klass, c => some (cregexCharClassContains klass (charValue c))
  | .characterClassNegated klass, c => some !(cregexCharClassContains klass (charValue c))
  | _, _ => none

section Machine

variable (program : List Instr) (string : List UInt8) (nmatches : ℕ)

/-- `vm_add_thread`. It calls itself no deeper than there are instructions. -/
def vmAddThread : ℕ → VmThreadList → (pc sp : ℕ) → Matches → C VmThreadList
  | 0, _, _, _, _ => .error .outOfFuel
  | depth + 1, list, pc, sp, ms => do
      let slot ← entry list.threads pc
      if slot.visited = sp + 1 then .ok list
      else do
        let list := { list with threads := list.threads.set pc { slot with visited := sp + 1 } }
        let instr ← entry program pc
        match instr with
        | .split first second => do
            let first ← pointedTo first
            let list ← vmAddThread depth list first sp ms
            let second ← pointedTo second
            vmAddThread depth list second sp ms
        | .jump target => do
            let target ← pointedTo target
            vmAddThread depth list target sp ms
        | .assertBegin =>
            if sp = 0 then vmAddThread depth list (pc + 1) sp ms else .ok list
        | .assertEnd => do
            let c ← load string sp
            if c = Ascii.nul then vmAddThread depth list (pc + 1) sp ms else .ok list
        | .save save =>
            if save < nmatches ∧ save < maxMatches then
              vmAddThread depth list (pc + 1) sp (ms.set save (some sp))
            else vmAddThread depth list (pc + 1) sp ms
        | _ => do
            let slot ← entry list.threads list.nthreads
            .ok {
              nthreads := list.nthreads + 1
              threads := list.threads.set list.nthreads
                { slot with pc := pc, «matches» := ms.take (savedMatches nmatches) } }

/-- What a turn of the loop over the characters changes -/
structure VmState where
  next : VmThreadList
  matched : Bool
  «matches» : Matches

/-- `for (int i = 0; i < current->nthreads; ++i)`, with the turns that are left -/
def vmStepThreads (current : VmThreadList) (sp : ℕ) : ℕ → ℕ → VmState → C VmState
  | 0, _, state => .ok state
  | turns + 1, i, state => do
      let thread ← entry current.threads i
      let instr ← entry program thread.pc
      match instr with
      | .matched =>
          -- `current->nthreads` is 0 from here on
          .ok { state with
            matched := true
            «matches» := thread.matches ++ state.matches.drop (savedMatches nmatches) }
      | instr => do
          let c ← load string sp
          match passes instr c with
          | none => .error .assertion
          | some false => vmStepThreads current sp turns (i + 1) state
          | some true => do
              let next ← vmAddThread program string nmatches (program.length + 1) state.next
                (thread.pc + 1) (sp + 1) thread.matches
              vmStepThreads current sp turns (i + 1) { state with next := next }

/-- `for (const char *sp = string;; ++sp)`. The string ends before there are no
turns left. -/
def vmRunFrom : ℕ → (sp : ℕ) → VmThreadList → VmState → C (Bool × Matches)
  | 0, _, _, _ => .error .outOfFuel
  | turns + 1, sp, current, state => do
      let state ← vmStepThreads program string nmatches current sp current.nthreads 0 state
      let next := { current with nthreads := 0 }
      let current := state.next
      if current.nthreads = 0 then .ok (state.matched, state.matches)
      else do
        let c ← load string sp
        if c = Ascii.nul then .ok (state.matched, state.matches)
        else vmRunFrom turns (sp + 1) current { state with next := next }

def vmEstimateThreads : ℤ := int32 (program.length * 2)

/-- `vm_run_with_threads` on a block of `threads` threads, of which each list has as many as
there are instructions: whether the string matches, and where -/
def vmRunWithThreads (threads : ℕ) : C (Bool × Matches) :=
  if threads < program.length * 2 then .error .outOfBounds
  else do
    let ms := List.replicate nmatches none
    let empty : VmThreadList := ⟨0, List.replicate program.length ⟨0, 0, []⟩⟩
    let current ← vmAddThread program string nmatches (program.length + 1) empty 0 0 ms
    vmRunFrom program string nmatches string.length 0 current ⟨empty, false, ms⟩

/-- `vm_run`, as `cregex_program_run` calls it: `none` for -1, where there is no block. A
negative estimate is a size that no block has; where it is not negative there is memory
for it. -/
def vmRun : C (Option (Bool × Matches)) :=
  if vmEstimateThreads program < 0 then .ok none
  else do
    let res ← vmRunWithThreads program string nmatches (vmEstimateThreads program).toNat
    .ok (some res)

/-! ## The graph of the places -/

/-- Where a thread goes on from an instruction at a position of the string, the
preferred way first -/
def moves (place : ℕ × ℕ) : Option (Edges (ℕ × ℕ) Matches) :=
  match program[place.1]? with
  | none => some []
  | some .matched => none
  | some (.split first second) =>
      some ((first.toList ++ second.toList).map fun pc => ((pc, place.2), id))
  | some (.jump target) => some (target.toList.map fun pc => ((pc, place.2), id))
  | some .assertBegin => some (if place.2 = 0 then [((place.1 + 1, place.2), id)] else [])
  | some .assertEnd =>
      some (if string.getD place.2 0 = Ascii.nul then [((place.1 + 1, place.2), id)] else [])
  | some (.save save) =>
      some [((place.1 + 1, place.2), fun ms => ms.set save (some place.2))]
  | some instr =>
      some (if string.getD place.2 0 ≠ Ascii.nul ∧ passes instr (string.getD place.2 0) = some true
        then [((place.1 + 1, place.2 + 1), id)] else [])

def waits (place : ℕ × ℕ) : Bool :=
  match program[place.1]? with
  | some instr => (passes instr 0).isSome
  | none => false

end Machine

end Nawam.Regex
