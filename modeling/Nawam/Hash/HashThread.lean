import Nawam.Base.Bytes
import Nawam.Base.System
import Mathlib.Data.Fintype.Basic
import Mathlib.Algebra.BigOperators.Group.Finset.Basic
import Mathlib.Algebra.Order.BigOperators.Group.Finset

/-!
# The reader and the hash threads

`HashThread` of `hash.c` reads the image into three buffers in turn, and one
`IndividualHashThread` for each hash processes what was read. They share the
buffers, `read_size` and `proc_bufnum`, and keep out of each other's way by
two auto-reset events for each hash: `thread_ready`, by which a thread hands
in the chunk it was given, and `data_ready`, by which the reader gives out the
next one. The read runs one chunk ahead, and a chunk of size 0 is the end.

Every statement that touches something shared is a step of its own, and any
thread may take the next one. A wait takes as long as it takes: that it may
time out is left out, and where the reader gives up, the run is `aborted`.

`Given` says how far a thread is with what it was given, and `Rotating` what
the reader has stored where; `HashState.Ok` puts them together, and a step of
any thread preserves it.
-/

namespace Nawam

/-! ## Source -/

abbrev hashBuffers : ℕ := 3
abbrev hashBufferSize : ℕ := 64 * 1024

/-- Where `HashThread` is: at the head of its loop, at one of the numbered
statements in it, or behind it. -/
inductive ReaderPc where
  | head
  | waitRead
  | launch
  | waitReady
  | setProc
  | signal (i : ℕ)
  | join
  | done
deriving DecidableEq, Repr

/-- Where an `IndividualHashThread` is; the buffer and the size it has loaded
for `hash_write` are with it. -/
inductive ThreadPc where
  | starting
  | waiting
  | woken
  | fetching
  | fetched (bufnum : ℕ)
  | writing (bufnum size : ℕ)
  | signalling
  | finishing
  | exited
deriving DecidableEq, Repr

/-- A call a thread makes on its hash context after `hash_init`. -/
inductive HashCall where
  | write (chunk : List UInt8)
  | final
deriving DecidableEq, Repr

/-- The globals, the variables of the reader and of the `n` hash threads. -/
structure HashState (n : ℕ) where
  buffer : ℕ → List UInt8
  readSize : ℕ → ℕ
  procBufnum : ℕ
  dataReady : Fin n → Bool
  threadReady : Fin n → Bool
  reader : ReaderPc
  readBufnum : ℕ
  /-- `Overlapped.Offset` -/
  offset : ℕ
  /-- the buffer the read in flight goes to -/
  reading : Option ℕ
  /-- what the reads have delivered so far -/
  reads : List (List UInt8)
  aborted : Bool
  thread : Fin n → ThreadPc
  /-- the calls of each thread so far -/
  calls : Fin n → List HashCall

/-- Who moves. The size is what a read returns, and the garbage what is in the
buffer of a read until it is complete. -/
inductive HashAction (n : ℕ) where
  | reader (size : ℕ) (garbage : List UInt8)
  | thread (i : Fin n)
  | abort

variable {n : ℕ}

/-- What a read at this offset can return: some bytes, and none at the end of
the file only. -/
def readReturns (file : List UInt8) (offset size : ℕ) : Bool :=
  size ≤ hashBufferSize && offset + size ≤ file.length &&
    (size = 0 → offset = file.length)

namespace HashState

def readerStep (file : List UInt8) (size : ℕ) (garbage : List UInt8)
    (s : HashState n) : Option (HashState n) :=
  match s.reader with
  | .head =>
      if s.readSize s.procBufnum ≠ 0 then some { s with reader := .waitRead }
      else some { s with reader := .join }
  | .waitRead =>
      if readReturns file s.offset size then
        let data := (file.drop s.offset).take size
        some { s with
          buffer := Function.update s.buffer s.readBufnum
            (data ++ (s.buffer s.readBufnum).drop size)
          readSize := Function.update s.readSize s.readBufnum size
          offset := s.offset + size
          reading := none
          reads := s.reads ++ [data]
          reader := .launch }
      else none
  | .launch =>
      let bufnum := (s.readBufnum + 1) % hashBuffers
      some { s with
        readBufnum := bufnum
        buffer := Function.update s.buffer bufnum garbage
        reading := some bufnum
        reader := .waitReady }
  | .waitReady =>
      if ∀ i, s.threadReady i = true then
        some { s with threadReady := fun _ => false, reader := .setProc }
      else none
  | .setProc =>
      some { s with
        procBufnum := (s.readBufnum + hashBuffers - 1) % hashBuffers
        reader := .signal 0 }
  | .signal i =>
      if h : i < n then
        some { s with
          dataReady := Function.update s.dataReady ⟨i, h⟩ true
          reader := .signal (i + 1) }
      else some { s with reader := .head }
  | .join =>
      if ∀ i, s.thread i = .exited then some { s with reader := .done }
      else none
  | .done => none

def threadStep (i : Fin n) (s : HashState n) : Option (HashState n) :=
  let goto (pc : ThreadPc) := Function.update s.thread i pc
  match s.thread i with
  | .starting | .signalling =>
      some { s with
        threadReady := Function.update s.threadReady i true
        thread := goto .waiting }
  | .waiting =>
      if s.dataReady i then
        some { s with
          dataReady := Function.update s.dataReady i false
          thread := goto .woken }
      else none
  | .woken =>
      if s.readSize s.procBufnum ≠ 0 then some { s with thread := goto .fetching }
      else some { s with thread := goto .finishing }
  | .fetching => some { s with thread := goto (.fetched s.procBufnum) }
  | .fetched bufnum =>
      some { s with thread := goto (.writing bufnum (s.readSize s.procBufnum)) }
  | .writing bufnum size =>
      some { s with
        calls := Function.update s.calls i
          (s.calls i ++ [.write ((s.buffer bufnum).take size)])
        thread := goto .signalling }
  | .finishing =>
      some { s with
        calls := Function.update s.calls i (s.calls i ++ [.final])
        thread := goto .exited }
  | .exited => none

/-- The state in which the loop of the reader starts. -/
structure Started (s : HashState n) : Prop where
  readSize : s.readSize s.procBufnum = 1
  procBufnum : s.procBufnum = 1
  dataReady : ∀ i, s.dataReady i = false
  threadReady : ∀ i, s.threadReady i = false
  reader : s.reader = .head
  readBufnum : s.readBufnum = 0
  offset : s.offset = 0
  reading : s.reading = some 0
  reads : s.reads = []
  aborted : s.aborted = false
  thread : ∀ i, s.thread i = .starting
  calls : ∀ i, s.calls i = []

end HashState

/-- `HashThread` with `n` hash threads on a file. -/
def hashSystem (n : ℕ) (file : List UInt8) : System (HashState n) (HashAction n) where
  init := HashState.Started
  step
    | .reader size garbage, s =>
        if s.aborted then none else s.readerStep file size garbage
    | .thread i, s => s.threadStep i
    | .abort, s =>
        if s.aborted ∨ s.reader = .done then none
        else some { s with aborted := true }

/-! ## What the threads were given -/

/-- What a thread is to make of a chunk. -/
def hashCall (chunk : List UInt8) : HashCall :=
  if chunk = [] then .final else .write chunk

/-- A thread that has handed in all it was given. -/
structure CaughtUp (calls : List HashCall) (chunks : List (List UInt8)) : Prop where
  calls_eq : calls = chunks.map hashCall
  going : [] ∉ chunks

/-- A thread that has to process the last of the chunks it was given. -/
def Behind (calls : List HashCall) (chunks : List (List UInt8))
    (P : List (List UInt8) → List UInt8 → Prop) : Prop :=
  ∃ before chunk, chunks = before ++ [chunk] ∧
    calls = before.map hashCall ∧ P before chunk

/-- How far a thread is with the chunks it was given. Between two of them it
is `cleared` from when the reader has seen it ready until it is signalled. -/
def Given (pc : ThreadPc) (dataReady threadReady cleared : Bool)
    (calls : List HashCall) (chunks : List (List UInt8)) : Prop :=
  match pc with
  | .starting | .signalling =>
      (dataReady = false ∧ threadReady = false ∧ cleared = false) ∧
      CaughtUp calls chunks
  | .waiting =>
      dataReady = false ∧ threadReady = !cleared ∧ CaughtUp calls chunks ∨
      (dataReady = true ∧ threadReady = false ∧ cleared = false) ∧
      Behind calls chunks fun _ _ => True
  | .woken =>
      (dataReady = false ∧ threadReady = false ∧ cleared = false) ∧
      Behind calls chunks fun _ _ => True
  | .fetching =>
      (dataReady = false ∧ threadReady = false ∧ cleared = false) ∧
      Behind calls chunks fun _ chunk => chunk ≠ []
  | .fetched bufnum =>
      (dataReady = false ∧ threadReady = false ∧ cleared = false) ∧
      Behind calls chunks fun before chunk =>
        chunk ≠ [] ∧ bufnum = before.length % hashBuffers
  | .writing bufnum size =>
      (dataReady = false ∧ threadReady = false ∧ cleared = false) ∧
      Behind calls chunks fun before chunk =>
        chunk ≠ [] ∧ bufnum = before.length % hashBuffers ∧ size = chunk.length
  | .finishing =>
      (dataReady = false ∧ threadReady = false ∧ cleared = false) ∧
      Behind calls chunks fun _ chunk => chunk = []
  | .exited =>
      (dataReady = false ∧ threadReady = false ∧ cleared = false) ∧
      calls = chunks.map hashCall ∧ ∃ before, chunks = before ++ [[]]

section

variable {pc : ThreadPc} {dataReady threadReady cleared : Bool}
  {calls : List HashCall} {chunks : List (List UInt8)}

/-- Of all threads only one that waits has its event set. -/
theorem Given.of_ready (h : Given pc dataReady true cleared calls chunks) :
    pc = .waiting ∧ dataReady = false ∧ CaughtUp calls chunks := by
  cases pc with
  | waiting =>
      obtain ⟨hdata, -, hcaught⟩ | ⟨⟨-, hfalse, -⟩, -⟩ := h
      · exact ⟨rfl, hdata, hcaught⟩
      · cases hfalse
  | _ => cases h.1.2.1

/-- So has one that is cleared, until the reader has reset it. -/
theorem Given.of_cleared (h : Given pc dataReady threadReady true calls chunks) :
    pc = .waiting ∧ threadReady = false ∧ CaughtUp calls chunks := by
  cases pc with
  | waiting =>
      obtain ⟨-, hthread, hcaught⟩ | ⟨⟨-, -, hfalse⟩, -⟩ := h
      · exact ⟨rfl, hthread, hcaught⟩
      · cases hfalse
  | _ => cases h.1.2.2

end

namespace HashState

/-- The thread was seen ready, and not yet signalled. -/
def cleared (s : HashState n) (i : Fin n) : Bool :=
  match s.reader with
  | .setProc => true
  | .signal k => k ≤ i
  | _ => false

/-- The number of chunks that `proc_bufnum` has been set to. -/
def rounds (s : HashState n) : ℕ :=
  match s.reader with
  | .launch | .waitReady | .setProc => s.reads.length - 1
  | _ => s.reads.length

/-- The number of chunks the reader has signalled to thread `i`. -/
def given (s : HashState n) (i : Fin n) : ℕ :=
  match s.reader with
  | .launch | .waitReady | .setProc => s.reads.length - 1
  | .signal k => if k ≤ i then s.reads.length - 1 else s.reads.length
  | _ => s.reads.length

/-- The buffers and the sizes hold the last two reads, and the next read goes
to the third buffer. -/
structure Rotating (s : HashState n) : Prop where
  delivered : s.reader = .head ∨ s.reader = .waitRead ∨ 0 < s.reads.length
  readBufnum : s.readBufnum
    = (if s.reader = .launch then s.reads.length - 1 else s.reads.length)
        % hashBuffers
  reading : s.reading = if s.reader = .launch then none else some s.readBufnum
  procBufnum : 0 < s.rounds → s.procBufnum = (s.rounds - 1) % hashBuffers
  started : s.reads = [] → s.readSize s.procBufnum = 1
  stored : ∀ j chunk, s.reads[j]? = some chunk → s.reads.length ≤ j + 2 →
    s.readSize (j % hashBuffers) = chunk.length ∧
    (s.buffer (j % hashBuffers)).take chunk.length = chunk

/-- What was read is the file up to the offset, and the empty read is the
last one. -/
structure Reading (file : List UInt8) (s : HashState n) : Prop where
  flatten : s.reads.flatten = file.take s.offset
  offset_le : s.offset ≤ file.length
  atEnd : [] ∈ s.reads → s.offset = file.length
  going : [] ∉ s.reads.dropLast
  more : s.reader = .waitRead → [] ∉ s.reads
  ended : s.reader = .join ∨ s.reader = .done → [] ∈ s.reads

/-- The invariant of the run. -/
structure Ok (file : List UInt8) (s : HashState n) : Prop where
  rotating : s.Rotating
  reading : s.Reading file
  signal_le : ∀ k, s.reader = .signal k → k ≤ n
  exited : s.reader = .done → ∀ i, s.thread i = .exited
  threads : ∀ i, Given (s.thread i) (s.dataReady i) (s.threadReady i)
    (s.cleared i) (s.calls i) (s.reads.take (s.given i))

variable {file garbage : List UInt8} {size : ℕ} {s : HashState n} {i : Fin n}

/-- A step that reads nothing, to where nothing is read -/
theorem Reading.moved (h : s.Reading file) {s' : HashState n} (hoffset : s'.offset = s.offset)
    (hreads : s'.reads = s.reads) (hmore : s'.reader = .waitRead → [] ∉ s.reads)
    (hended : s'.reader = .join ∨ s'.reader = .done → [] ∈ s.reads) : s'.Reading file where
  flatten := by
    rw [hreads, hoffset]
    exact h.flatten
  offset_le := by
    rw [hoffset]
    exact h.offset_le
  atEnd := by
    rw [hreads, hoffset]
    exact h.atEnd
  going := by
    rw [hreads]
    exact h.going
  more := by
    rw [hreads]
    exact hmore
  ended := by
    rw [hreads]
    exact hended

theorem Started.ok (h : s.Started) : s.Ok file where
  rotating :=
    { delivered := .inl h.reader
      readBufnum := by
        rw [h.readBufnum, h.reader, h.reads]
        rfl
      reading := by
        rw [h.reading, h.readBufnum, h.reader]
        rfl
      procBufnum := by
        intro hpos
        rw [rounds, h.reader, h.reads] at hpos
        exact absurd hpos (lt_irrefl 0)
      started := fun _ => h.readSize
      stored := by
        intro j chunk hj
        rw [h.reads] at hj
        cases hj }
  reading :=
    { flatten := by
        rw [h.reads, h.offset]
        rfl
      offset_le := h.offset ▸ Nat.zero_le _
      atEnd := by
        rw [h.reads]
        exact fun hmem => nomatch hmem
      going := by
        rw [h.reads]
        exact fun hmem => nomatch hmem
      more := by
        rw [h.reads]
        exact fun _ hmem => nomatch hmem
      ended := by
        rw [h.reader]
        rintro (⟨⟨⟩⟩ | ⟨⟨⟩⟩) }
  signal_le := by
    intro k hk
    rw [h.reader] at hk
    cases hk
  exited := by
    intro hdone
    rw [h.reader] at hdone
    cases hdone
  threads := by
    intro i
    rw [h.thread i, h.dataReady i, h.threadReady i, h.calls i, h.reads]
    refine ⟨⟨rfl, rfl, ?_⟩, ⟨by simp, by simp⟩⟩
    rw [cleared, h.reader]

/-! ## The steps of a hash thread -/

theorem given_of_cleared (h : s.cleared i = false) : s.given i = s.rounds := by
  unfold cleared at h
  unfold given rounds
  cases hpc : s.reader with
  | signal k =>
      rw [hpc] at h
      exact if_neg (of_decide_eq_false h)
  | _ => rfl

theorem rounds_le (s : HashState n) :
    s.rounds ≤ s.reads.length ∧ s.reads.length ≤ s.rounds + 1 := by
  unfold rounds
  split <;> omega

/-- What a thread that is behind finds: `proc_bufnum` is where its chunk is,
and the chunk is still there. -/
theorem Rotating.current (h : s.Rotating) (hclear : s.cleared i = false)
    {before : List (List UInt8)} {chunk : List UInt8}
    (hgiven : s.reads.take (s.given i) = before ++ [chunk]) :
    s.procBufnum = before.length % hashBuffers ∧
    s.readSize (before.length % hashBuffers) = chunk.length ∧
    (s.buffer (before.length % hashBuffers)).take chunk.length = chunk := by
  rw [given_of_cleared hclear] at hgiven
  obtain ⟨hle, hle'⟩ := s.rounds_le
  have hlength : s.rounds = before.length + 1 := by
    have htake := congrArg List.length hgiven
    rw [List.length_take, Nat.min_eq_left hle, List.length_append,
      List.length_singleton] at htake
    exact htake
  have hchunk : s.reads[before.length]? = some chunk := by
    have htake : (s.reads.take s.rounds)[before.length]? = some chunk := by
      rw [hgiven, List.getElem?_append_right le_rfl, Nat.sub_self,
        List.getElem?_cons_zero]
    rwa [List.getElem?_take_of_lt (by omega)] at htake
  refine ⟨?_, h.stored before.length chunk hchunk (by omega)⟩
  rw [h.procBufnum (by omega), hlength, Nat.add_sub_cancel]

/-- No chunk before another one was the end. -/
theorem Reading.going_before (h : s.Reading file) {m : ℕ}
    {before : List (List UInt8)} {chunk : List UInt8}
    (htake : s.reads.take m = before ++ [chunk]) : [] ∉ before := by
  have hlength : before.length + 1 ≤ s.reads.length := by
    have hle : (s.reads.take m).length ≤ s.reads.length := List.length_take_le' ..
    rw [htake, List.length_append, List.length_singleton] at hle
    exact hle
  have hlength' : before.length + 1 ≤ m := by
    have hle : (s.reads.take m).length ≤ m := List.length_take_le ..
    rw [htake, List.length_append, List.length_singleton] at hle
    exact hle
  have hbefore : s.reads.dropLast.take before.length = before := by
    calc s.reads.dropLast.take before.length
        = s.reads.take before.length := by
          rw [List.dropLast_eq_take, List.take_take, Nat.min_eq_left (by omega)]
      _ = (s.reads.take m).take before.length := by
          rw [List.take_take, Nat.min_eq_left (by omega)]
      _ = before := by
          rw [htake, List.take_left]
  intro hmem
  rw [← hbefore] at hmem
  exact h.going (List.mem_of_mem_take hmem)

/-- A step of thread `i` only changes what is its own. -/
theorem Ok.of_thread (h : s.Ok file) (i : Fin n) (s' : HashState n)
    (hpc : s.thread i ≠ .exited) (pc : ThreadPc) (dataReady threadReady : Bool)
    (calls : List HashCall) (hgiven : Given pc dataReady threadReady (s.cleared i) calls
      (s.reads.take (s.given i)))
    (hs' : s' = { s with
      dataReady := Function.update s.dataReady i dataReady
      threadReady := Function.update s.threadReady i threadReady
      thread := Function.update s.thread i pc
      calls := Function.update s.calls i calls }) : s'.Ok file := by
  subst hs'
  exact
    { rotating := ⟨h.rotating.delivered, h.rotating.readBufnum,
        h.rotating.reading, h.rotating.procBufnum, h.rotating.started,
        h.rotating.stored⟩
      reading := ⟨h.reading.flatten, h.reading.offset_le, h.reading.atEnd,
        h.reading.going, h.reading.more, h.reading.ended⟩
      signal_le := h.signal_le
      exited := fun hdone => absurd (h.exited hdone i) hpc
      threads := by
        intro j
        by_cases hj : j = i
        · subst hj
          simp only [Function.update_self]
          exact hgiven
        · simp only [Function.update_of_ne hj]
          exact h.threads j }

theorem hashCall_of_ne {chunk : List UInt8} (h : chunk ≠ []) :
    hashCall chunk = .write chunk := if_neg h

/-- Every step of a hash thread leads from the stage it is at to the next. -/
theorem Ok.threadStep {s' : HashState n} (h : s.Ok file)
    (hstep : s.threadStep i = some s') : s'.Ok file := by
  have hgiven := h.threads i
  have hmove := h.of_thread i s'
  cases hpc : s.thread i with
  | starting | signalling =>
      rw [hpc] at hgiven hmove
      obtain ⟨⟨hdata, -, hclear⟩, hcaught⟩ := hgiven
      simp only [HashState.threadStep, hpc, Option.some.injEq] at hstep
      apply hmove (by simp) .waiting (s.dataReady i) true (s.calls i)
      · exact .inl ⟨hdata, by rw [hclear]; rfl, hcaught⟩
      · simp only [← hstep, Function.update_eq_self]
  | waiting =>
      rw [hpc] at hgiven hmove
      simp only [HashState.threadStep, hpc] at hstep
      split at hstep
      case isTrue hready =>
          obtain ⟨hdata, -⟩ | ⟨⟨-, hthread, hclear⟩, hbehind⟩ := hgiven
          · rw [hready] at hdata
            cases hdata
          · rw [Option.some.injEq] at hstep
            apply hmove (by simp) .woken false (s.threadReady i) (s.calls i)
            · exact ⟨⟨rfl, hthread, hclear⟩, hbehind⟩
            · simp only [← hstep, Function.update_eq_self]
      case isFalse => cases hstep
  | woken =>
      rw [hpc] at hgiven hmove
      obtain ⟨hidle, before, chunk, hchunks, hcalls, -⟩ := hgiven
      obtain ⟨hproc, hsize, -⟩ := h.rotating.current hidle.2.2 hchunks
      simp only [HashState.threadStep, hpc, hproc, hsize] at hstep
      split at hstep
      case isTrue hne =>
          rw [Option.some.injEq] at hstep
          apply hmove (by simp) .fetching (s.dataReady i) (s.threadReady i)
            (s.calls i)
          · exact ⟨hidle, before, chunk, hchunks, hcalls,
              fun hnil => hne (hnil ▸ rfl)⟩
          · simp only [← hstep, hproc, Function.update_eq_self]
      case isFalse hzero =>
          rw [Option.some.injEq] at hstep
          apply hmove (by simp) .finishing (s.dataReady i) (s.threadReady i)
            (s.calls i)
          · exact ⟨hidle, before, chunk, hchunks, hcalls,
              List.length_eq_zero_iff.mp (not_not.mp hzero)⟩
          · simp only [← hstep, hproc, Function.update_eq_self]
  | fetching =>
      rw [hpc] at hgiven hmove
      obtain ⟨hidle, before, chunk, hchunks, hcalls, hne⟩ := hgiven
      obtain ⟨hproc, -⟩ := h.rotating.current hidle.2.2 hchunks
      simp only [HashState.threadStep, hpc, Option.some.injEq] at hstep
      apply hmove (by simp) (.fetched s.procBufnum) (s.dataReady i)
        (s.threadReady i) (s.calls i)
      · exact ⟨hidle, before, chunk, hchunks, hcalls, hne, hproc⟩
      · simp only [← hstep, Function.update_eq_self]
  | fetched bufnum =>
      rw [hpc] at hgiven hmove
      obtain ⟨hidle, before, chunk, hchunks, hcalls, hne, hbuf⟩ := hgiven
      obtain ⟨hproc, hsize, -⟩ := h.rotating.current hidle.2.2 hchunks
      simp only [HashState.threadStep, hpc, Option.some.injEq] at hstep
      apply hmove (by simp) (.writing bufnum (s.readSize s.procBufnum))
        (s.dataReady i) (s.threadReady i) (s.calls i)
      · exact ⟨hidle, before, chunk, hchunks, hcalls, hne, hbuf,
          by rw [hproc, hsize]⟩
      · simp only [← hstep, Function.update_eq_self]
  | writing bufnum size =>
      rw [hpc] at hgiven hmove
      obtain ⟨hidle, before, chunk, hchunks, hcalls, hne, hbuf, hsize⟩ := hgiven
      obtain ⟨-, -, hstored⟩ := h.rotating.current hidle.2.2 hchunks
      simp only [HashState.threadStep, hpc, Option.some.injEq] at hstep
      apply hmove (by simp) .signalling (s.dataReady i) (s.threadReady i)
        (s.calls i ++ [.write ((s.buffer bufnum).take size)])
      · refine ⟨hidle, ?_, ?_⟩
        · rw [hbuf, hsize, hstored, hcalls, hchunks, List.map_append,
            ← hashCall_of_ne hne]
          rfl
        · rw [hchunks, List.mem_append, List.mem_singleton]
          rintro (hmem | hnil)
          · exact h.reading.going_before hchunks hmem
          · exact hne hnil.symm
      · simp only [← hstep, Function.update_eq_self]
  | finishing =>
      rw [hpc] at hgiven hmove
      obtain ⟨hidle, before, chunk, hchunks, hcalls, hnil⟩ := hgiven
      subst hnil
      simp only [HashState.threadStep, hpc, Option.some.injEq] at hstep
      apply hmove (by simp) .exited (s.dataReady i) (s.threadReady i)
        (s.calls i ++ [.final])
      · refine ⟨hidle, ?_, before, hchunks⟩
        rw [hcalls, hchunks, List.map_append]
        rfl
      · simp only [← hstep, Function.update_eq_self]
  | exited =>
      simp only [HashState.threadStep, hpc] at hstep
      cases hstep

/-! ## The steps of the reader -/

/-- At the head of the loop `proc_bufnum` is the last read. -/
theorem Rotating.last (h : s.Rotating) (hrounds : s.rounds = s.reads.length)
    {before : List (List UInt8)} {chunk : List UInt8}
    (hreads : s.reads = before ++ [chunk]) :
    s.readSize s.procBufnum = chunk.length := by
  have hlength : s.reads.length = before.length + 1 := by
    rw [hreads, List.length_append, List.length_singleton]
  have hchunk : s.reads[before.length]? = some chunk := by
    rw [hreads, List.getElem?_append_right le_rfl, Nat.sub_self,
      List.getElem?_cons_zero]
  rw [h.procBufnum (by omega), hrounds, hlength, Nat.add_sub_cancel]
  exact (h.stored before.length chunk hchunk (by omega)).1

/-- The loop is left when the last read is the end, and only then. -/
theorem Ok.head_iff (h : s.Ok file) (hpc : s.reader = .head) :
    s.readSize s.procBufnum = 0 ↔ [] ∈ s.reads := by
  have hrounds : s.rounds = s.reads.length := by rw [rounds, hpc]
  rcases List.eq_nil_or_concat s.reads with hnil | ⟨before, chunk, hreads⟩
  · rw [h.rotating.started hnil, hnil]
    simp
  · rw [List.concat_eq_append] at hreads
    have hgoing : [] ∉ before := by
      have hdrop := h.reading.going
      rwa [hreads, List.dropLast_concat] at hdrop
    rw [h.rotating.last hrounds hreads, hreads, List.length_eq_zero_iff,
      List.mem_append, List.mem_singleton]
    constructor
    · exact fun hchunk => .inr hchunk.symm
    · exact fun hmem => (hmem.resolve_left hgoing).symm

theorem Ok.head (h : s.Ok file) (hpc : s.reader = .head) {s' : HashState n}
    (hstep : s.readerStep file size garbage = some s') : s'.Ok file := by
  simp only [readerStep, hpc, h.head_iff hpc, ne_eq] at hstep
  have hread := h.rotating.readBufnum
  have hreading := h.rotating.reading
  have hproc := h.rotating.procBufnum
  have hthreads := h.threads
  simp only [hpc, rounds, cleared, given] at hread hreading hproc hthreads
  split at hstep
  case isTrue hmore =>
      cases hstep
      exact
        { rotating := ⟨.inr (.inl rfl), hread, hreading, hproc,
            h.rotating.started, h.rotating.stored⟩
          reading := h.reading.moved rfl rfl (fun _ => hmore)
            (fun hend => by simp at hend)
          signal_le := fun k hk => nomatch hk
          exited := fun hdone => nomatch hdone
          threads := hthreads }
  case isFalse hend =>
      cases hstep
      have hlength : 0 < s.reads.length :=
        List.length_pos_of_mem (not_not.mp hend)
      exact
        { rotating := ⟨.inr (.inr hlength), hread, hreading, hproc,
            h.rotating.started, h.rotating.stored⟩
          reading := h.reading.moved rfl rfl (fun hmore => nomatch hmore)
            (fun _ => not_not.mp hend)
          signal_le := fun k hk => nomatch hk
          exited := fun hdone => nomatch hdone
          threads := hthreads }

/-- A read that has ended: the chunk before it is still in the buffer before,
and no thread is given the new one yet. -/
theorem Ok.waitRead (h : s.Ok file) (hpc : s.reader = .waitRead)
    {s' : HashState n} (hstep : s.readerStep file size garbage = some s') :
    s'.Ok file := by
  simp only [readerStep, hpc] at hstep
  split at hstep
  case isFalse => cases hstep
  case isTrue hreturns =>
  cases hstep
  simp only [readReturns, Bool.and_eq_true, decide_eq_true_eq] at hreturns
  obtain ⟨⟨-, hle⟩, hzero⟩ := hreturns
  have hread := h.rotating.readBufnum
  have hproc := h.rotating.procBufnum
  have hthreads := h.threads
  simp only [hpc, rounds, cleared, given, reduceCtorEq, if_false]
    at hread hproc hthreads
  have hmore : [] ∉ s.reads := h.reading.more hpc
  have hsize : ((file.drop s.offset).take size).length = size := by
    rw [List.length_take, List.length_drop]
    omega
  exact
    { rotating :=
        { delivered := .inr (.inr (by simp))
          readBufnum := by simpa using hread
          reading := rfl
          procBufnum := by simpa [rounds] using hproc
          started := fun hnil => by simp at hnil
          stored := by
            intro j chunk hj hlast
            dsimp only at hj hlast ⊢
            rw [List.length_append, List.length_singleton] at hlast
            rcases Nat.lt_or_ge j s.reads.length with hold | hnew
            · rw [List.getElem?_append_left hold] at hj
              have hne : j % hashBuffers ≠ s.readBufnum := by
                rw [hread]
                simp only [hashBuffers]
                omega
              rw [Function.update_of_ne hne, Function.update_of_ne hne]
              exact h.rotating.stored j chunk hj (by omega)
            · rw [List.getElem?_append_right hnew, List.getElem?_singleton] at hj
              split at hj
              case isFalse => cases hj
              case isTrue hlast' =>
                  cases hj
                  have heq : j % hashBuffers = s.readBufnum := by
                    rw [hread, (by omega : j = s.reads.length)]
                  rw [heq, Function.update_self, Function.update_self]
                  exact ⟨hsize.symm, List.take_left⟩ }
      reading :=
        { flatten := by
            rw [List.flatten_append, h.reading.flatten, List.flatten_singleton,
              List.take_add]
          offset_le := hle
          atEnd := by
            rw [List.mem_append, List.mem_singleton]
            intro hmem
            have hnil : ((file.drop s.offset).take size).length = 0 := by
              rw [← hmem.resolve_left hmore]
              rfl
            have hend := hzero (hsize ▸ hnil)
            dsimp only
            omega
          going := by
            rw [List.dropLast_concat]
            exact hmore
          more := fun hwait => nomatch hwait
          ended := by rintro (⟨⟨⟩⟩ | ⟨⟨⟩⟩) }
      signal_le := fun k hk => nomatch hk
      exited := fun hdone => nomatch hdone
      threads := by
        intro i
        have htake : (s.reads ++ [(file.drop s.offset).take size]).take
            ((s.reads ++ [(file.drop s.offset).take size]).length - 1)
            = s.reads.take s.reads.length := by
          rw [List.length_append, List.length_singleton, Nat.add_sub_cancel,
            List.take_append_of_le_length le_rfl]
        simp only [cleared, given, htake]
        exact hthreads i }

theorem Ok.launch (h : s.Ok file) (hpc : s.reader = .launch)
    {s' : HashState n} (hstep : s.readerStep file size garbage = some s') :
    s'.Ok file := by
  simp only [readerStep, hpc, Option.some.injEq] at hstep
  have hread := h.rotating.readBufnum
  have hproc := h.rotating.procBufnum
  have hthreads := h.threads
  have hpos := h.rotating.delivered
  simp only [hpc, rounds, cleared, given, if_true, reduceCtorEq, false_or]
    at hread hproc hthreads hpos
  have hnext : (s.readBufnum + 1) % hashBuffers
      = s.reads.length % hashBuffers := by
    rw [hread]
    simp only [hashBuffers]
    omega
  subst hstep
  exact
    { rotating :=
        { delivered := .inr (.inr hpos)
          readBufnum := hnext
          reading := rfl
          procBufnum := hproc
          started := h.rotating.started
          stored := by
            intro j chunk hj hlast
            have hlt : j < s.reads.length :=
              (List.getElem?_eq_some_iff.mp hj).1
            dsimp only at hlast ⊢
            have hne : j % hashBuffers ≠ (s.readBufnum + 1) % hashBuffers := by
              rw [hnext]
              simp only [hashBuffers]
              omega
            rw [Function.update_of_ne hne]
            exact h.rotating.stored j chunk hj hlast }
      reading := h.reading.moved rfl rfl (fun hwait => nomatch hwait)
        (fun hend => by simp at hend)
      signal_le := fun k hk => nomatch hk
      exited := fun hdone => nomatch hdone
      threads := hthreads }

theorem Ok.waitReady (h : s.Ok file) (hpc : s.reader = .waitReady)
    {s' : HashState n} (hstep : s.readerStep file size garbage = some s') :
    s'.Ok file := by
  simp only [readerStep, hpc] at hstep
  split at hstep
  case isFalse => cases hstep
  case isTrue hready =>
  cases hstep
  have hrot := h.rotating
  have hread := hrot.readBufnum
  have hreading := hrot.reading
  have hproc := hrot.procBufnum
  have hthreads := h.threads
  have hpos := hrot.delivered
  simp only [hpc, rounds, cleared, given, reduceCtorEq, if_false, false_or]
    at hread hreading hproc hthreads hpos
  exact
    { rotating := ⟨.inr (.inr hpos), hread, hreading, hproc, hrot.started,
        hrot.stored⟩
      reading := h.reading.moved rfl rfl (fun hwait => nomatch hwait)
        (fun hend => by simp at hend)
      signal_le := fun k hk => nomatch hk
      exited := fun hdone => nomatch hdone
      threads := by
        intro i
        have hgiven := hthreads i
        rw [hready i] at hgiven
        obtain ⟨hwaiting, hdata, hcaught⟩ := hgiven.of_ready
        rw [hwaiting]
        exact .inl ⟨hdata, rfl, hcaught⟩ }

theorem Ok.setProc (h : s.Ok file) (hpc : s.reader = .setProc)
    {s' : HashState n} (hstep : s.readerStep file size garbage = some s') :
    s'.Ok file := by
  simp only [readerStep, hpc, Option.some.injEq] at hstep
  have hrot := h.rotating
  have hread := hrot.readBufnum
  have hreading := hrot.reading
  have hthreads := h.threads
  have hpos := hrot.delivered
  simp only [hpc, cleared, given, reduceCtorEq, if_false, false_or]
    at hread hreading hthreads hpos
  have hproc : (s.readBufnum + hashBuffers - 1) % hashBuffers
      = (s.reads.length - 1) % hashBuffers := by
    rw [hread]
    simp only [hashBuffers]
    omega
  subst hstep
  exact
    { rotating := ⟨.inr (.inr hpos), hread, hreading, fun _ => hproc,
        (fun hnil => absurd hnil (List.length_pos_iff.mp hpos)), hrot.stored⟩
      reading := h.reading.moved rfl rfl (fun hwait => nomatch hwait)
        (fun hend => by simp at hend)
      signal_le := by
        rintro k ⟨⟩
        exact Nat.zero_le n
      exited := fun hdone => nomatch hdone
      threads := by
        intro i
        simpa [cleared, given] using hthreads i }

/-- Thread `i` is given the chunk that `proc_bufnum` was set to. -/
theorem Ok.signal (h : s.Ok file) {k : ℕ} (hpc : s.reader = .signal k)
    {s' : HashState n} (hstep : s.readerStep file size garbage = some s') :
    s'.Ok file := by
  simp only [readerStep, hpc] at hstep
  have hrot := h.rotating
  have hread := hrot.readBufnum
  have hreading := hrot.reading
  have hproc := hrot.procBufnum
  have hthreads := h.threads
  have hpos := hrot.delivered
  simp only [hpc, rounds, cleared, given, reduceCtorEq, if_false, false_or]
    at hread hreading hproc hthreads hpos
  split at hstep
  case isTrue hlt =>
      cases hstep
      exact
        { rotating := ⟨.inr (.inr hpos), hread, hreading, hproc, hrot.started,
            hrot.stored⟩
          reading := h.reading.moved rfl rfl (fun hwait => nomatch hwait)
            (fun hend => by simp at hend)
          signal_le := by
            rintro _ ⟨⟩
            exact hlt
          exited := fun hdone => nomatch hdone
          threads := by
            intro i
            have hgiven := hthreads i
            by_cases hi : i = ⟨k, hlt⟩
            · subst hi
              simp only [le_refl, decide_true, if_true] at hgiven
              obtain ⟨hwaiting, hthread, hcaught⟩ := hgiven.of_cleared
              have hnil : s.reads ≠ [] := List.length_pos_iff.mp hpos
              have hafter : ¬k + 1 ≤ k := by omega
              simp only [cleared, given, hafter, decide_false, if_false,
                Function.update_self, hwaiting, List.take_length]
              refine .inr ⟨⟨rfl, hthread, rfl⟩, s.reads.take (s.reads.length - 1),
                s.reads.getLast hnil, ?_, hcaught.calls_eq, trivial⟩
              rw [← List.dropLast_eq_take, List.dropLast_append_getLast]
            · have hne : k ≠ i := fun heq => hi (Fin.ext heq.symm)
              have hiff : k ≤ i ↔ k + 1 ≤ i := by omega
              simp only [cleared, given, Function.update_of_ne hi]
              simpa only [hiff] using hgiven }
  case isFalse hge =>
      cases hstep
      exact
        { rotating := ⟨.inl rfl, hread, hreading, hproc, hrot.started,
            hrot.stored⟩
          reading := h.reading.moved rfl rfl (fun hwait => nomatch hwait)
            (fun hend => by simp at hend)
          signal_le := fun k hk => nomatch hk
          exited := fun hdone => nomatch hdone
          threads := by
            intro i
            have hgiven := hthreads i
            have hlt : ¬k ≤ i := by omega
            simp only [hlt, decide_false, if_false] at hgiven
            exact hgiven }

theorem Ok.join (h : s.Ok file) (hpc : s.reader = .join) {s' : HashState n}
    (hstep : s.readerStep file size garbage = some s') : s'.Ok file := by
  simp only [readerStep, hpc] at hstep
  split at hstep
  case isFalse => cases hstep
  case isTrue hexited =>
  cases hstep
  have hrot := h.rotating
  have hread := hrot.readBufnum
  have hreading := hrot.reading
  have hproc := hrot.procBufnum
  have hthreads := h.threads
  have hpos := hrot.delivered
  simp only [hpc, rounds, cleared, given, reduceCtorEq, if_false, false_or]
    at hread hreading hproc hthreads hpos
  exact
    { rotating := ⟨.inr (.inr hpos), hread, hreading, hproc, hrot.started,
        hrot.stored⟩
      reading := h.reading.moved rfl rfl (fun hwait => nomatch hwait)
        (fun _ => h.reading.ended (.inl hpc))
      signal_le := fun k hk => nomatch hk
      exited := fun _ => hexited
      threads := hthreads }

theorem Ok.readerStep {s' : HashState n} (h : s.Ok file)
    (hstep : s.readerStep file size garbage = some s') : s'.Ok file := by
  cases hpc : s.reader with
  | head => exact h.head hpc hstep
  | waitRead => exact h.waitRead hpc hstep
  | launch => exact h.launch hpc hstep
  | waitReady => exact h.waitReady hpc hstep
  | setProc => exact h.setProc hpc hstep
  | signal k => exact h.signal hpc hstep
  | join => exact h.join hpc hstep
  | done =>
      simp only [HashState.readerStep, hpc] at hstep
      cases hstep

end HashState

/-- The invariant holds in every state the system can come to. -/
theorem hashSystem_ok {file : List UInt8} {s : HashState n}
    (h : (hashSystem n file).Reachable s) : s.Ok file := by
  apply h.invariant
  · exact fun s hs => HashState.Started.ok hs
  · intro s a s' hok hstep
    cases a with
    | reader size garbage =>
        simp only [hashSystem] at hstep
        split at hstep
        case isTrue => cases hstep
        case isFalse => exact hok.readerStep hstep
    | thread i => exact hok.threadStep hstep
    | abort =>
        simp only [hashSystem] at hstep
        split at hstep
        case isTrue => cases hstep
        case isFalse =>
            cases hstep
            exact ⟨⟨hok.rotating.delivered, hok.rotating.readBufnum,
              hok.rotating.reading, hok.rotating.procBufnum,
              hok.rotating.started, hok.rotating.stored⟩,
              ⟨hok.reading.flatten, hok.reading.offset_le, hok.reading.atEnd,
                hok.reading.going, hok.reading.more, hok.reading.ended⟩,
              hok.signal_le, hok.exited, hok.threads⟩

/-! ## What the threads do -/

/-- A thread makes one call for each chunk it was given, in their order, and
may have the last of them still to make. -/
theorem Given.calls_prefix {pc : ThreadPc} {dataReady threadReady cleared : Bool}
    {calls : List HashCall} {chunks : List (List UInt8)}
    (h : Given pc dataReady threadReady cleared calls chunks) :
    calls <+: chunks.map hashCall := by
  have hbehind {P : List (List UInt8) → List UInt8 → Prop}
      (h : Behind calls chunks P) : calls <+: chunks.map hashCall := by
    obtain ⟨before, chunk, hchunks, hcalls, -⟩ := h
    rw [hchunks, hcalls, List.map_append]
    exact List.prefix_append _ _
  cases pc with
  | starting | signalling => exact h.2.calls_eq ▸ List.prefix_rfl
  | waiting =>
      obtain ⟨-, -, hcaught⟩ | ⟨-, h⟩ := h
      · exact hcaught.calls_eq ▸ List.prefix_rfl
      · exact hbehind h
  | exited => exact h.2.1 ▸ List.prefix_rfl
  | woken | fetching | fetched bufnum | writing bufnum size | finishing =>
      exact hbehind h.2

namespace HashState

/-- The buffer a thread processes, or will process next: one that is signalled
takes `proc_bufnum`. -/
def processing (s : HashState n) (i : Fin n) : Option ℕ :=
  match s.thread i with
  | .waiting => if s.dataReady i then some s.procBufnum else none
  | .woken | .fetching => some s.procBufnum
  | .fetched bufnum | .writing bufnum _ => some bufnum
  | _ => none

variable {file garbage : List UInt8} {size : ℕ} {s : HashState n} {i : Fin n}

/-- What a thread that is behind processes is one of the last two reads. -/
theorem Rotating.reading_ne (h : s.Rotating) (hclear : s.cleared i = false)
    {P : List (List UInt8) → List UInt8 → Prop}
    (hbehind : Behind (s.calls i) (s.reads.take (s.given i)) P) :
    s.reading ≠ some s.procBufnum := by
  obtain ⟨before, chunk, hchunks, -⟩ := hbehind
  rw [given_of_cleared hclear] at hchunks
  obtain ⟨hle, hle'⟩ := s.rounds_le
  have hlength : s.rounds = before.length + 1 := by
    have htake := congrArg List.length hchunks
    rw [List.length_take, Nat.min_eq_left hle, List.length_append,
      List.length_singleton] at htake
    exact htake
  rw [h.reading, h.procBufnum (by omega), h.readBufnum]
  split
  case isTrue => simp
  case isFalse =>
      intro heq
      rw [Option.some.injEq] at heq
      simp only [hashBuffers] at heq
      omega

theorem Ok.processing_ne (h : s.Ok file) (i : Fin n) (bufnum : ℕ)
    (hreading : s.reading = some bufnum) : s.processing i ≠ some bufnum := by
  have hgiven := h.threads i
  rw [← hreading]
  unfold processing
  cases hpc : s.thread i with
  | waiting =>
      rw [hpc] at hgiven
      obtain ⟨hdata, -⟩ | ⟨⟨hdata, -, hclear⟩, hbehind⟩ := hgiven
      · simp [hdata, hreading]
      · simp only [hdata, if_true]
        exact (h.rotating.reading_ne hclear hbehind).symm
  | woken | fetching =>
      rw [hpc] at hgiven
      exact (h.rotating.reading_ne hgiven.1.2.2 hgiven.2).symm
  | fetched b =>
      rw [hpc] at hgiven
      obtain ⟨hidle, hbehind⟩ := hgiven
      have hne := h.rotating.reading_ne hidle.2.2 hbehind
      obtain ⟨before, chunk, hchunks, -, -, hbuf⟩ := hbehind
      rw [(h.rotating.current hidle.2.2 hchunks).1] at hne
      exact hbuf ▸ hne.symm
  | writing b size =>
      rw [hpc] at hgiven
      obtain ⟨hidle, hbehind⟩ := hgiven
      have hne := h.rotating.reading_ne hidle.2.2 hbehind
      obtain ⟨before, chunk, hchunks, -, -, hbuf, -⟩ := hbehind
      rw [(h.rotating.current hidle.2.2 hchunks).1] at hne
      exact hbuf ▸ hne.symm
  | starting | signalling | finishing | exited => simp [hreading]

/-- When the reader is through, the reads are the file and the end, and every
thread has made all its calls. -/
theorem Ok.done (h : s.Ok file) (hpc : s.reader = .done) :
    ∃ chunks : List (List UInt8), chunks.flatten = file ∧ [] ∉ chunks ∧
      ∀ i, s.calls i = chunks.map .write ++ [.final] := by
  have hend : [] ∈ s.reads := h.reading.ended (.inr hpc)
  have hnil : s.reads ≠ [] := List.ne_nil_of_mem hend
  have hsplit : s.reads.dropLast ++ [s.reads.getLast hnil] = s.reads :=
    List.dropLast_append_getLast hnil
  have hlast : s.reads.getLast hnil = [] := by
    rw [← hsplit, List.mem_append, List.mem_singleton] at hend
    exact (hend.resolve_left h.reading.going).symm
  rw [hlast] at hsplit
  refine ⟨s.reads.dropLast, ?_, h.reading.going, fun i => ?_⟩
  · have hflat := h.reading.flatten
    rw [h.reading.atEnd hend, List.take_length, ← hsplit, List.flatten_append] at hflat
    simpa using hflat
  · have hgiven := h.threads i
    rw [h.exited hpc i] at hgiven
    have hcalls := hgiven.2.1
    simp only [given, hpc, List.take_length] at hcalls
    rw [hcalls, ← hsplit, List.map_append, List.dropLast_concat]
    have hwrite : s.reads.dropLast.map hashCall = s.reads.dropLast.map .write :=
      List.map_congr_left fun chunk hchunk =>
        hashCall_of_ne fun hnil => h.reading.going (hnil ▸ hchunk)
    rw [hwrite]
    rfl

end HashState

/-! ## The run comes to its end -/

/-- How many steps a hash thread can take before it waits. -/
def ThreadPc.work : ThreadPc → ℕ
  | .starting => 2
  | .waiting => 0
  | .woken => 6
  | .fetching => 5
  | .fetched _ => 4
  | .writing _ _ => 3
  | .signalling => 1
  | .finishing => 1
  | .exited => 0

namespace HashState

/-- An event that is set is worth the steps it wakes the thread for. -/
def threadWork (s : HashState n) (i : Fin n) : ℕ :=
  (s.thread i).work + if s.dataReady i then 7 else 0

/-- The steps of the reader up to the next read, with what its events set off. -/
def readerWork (s : HashState n) : ℕ :=
  match s.reader with
  | .head => 3
  | .waitRead => 2
  | .launch => 8 * n + 7
  | .waitReady => 8 * n + 6
  | .setProc => 8 * n + 5
  | .signal k => 8 * (n - k) + 4
  | .join => 1
  | .done => 0

def readsLeft (file : List UInt8) (s : HashState n) : ℕ :=
  file.length - s.offset + if [] ∈ s.reads then 0 else 1

/-- A bound on the steps that are left. -/
def work (file : List UInt8) (s : HashState n) : ℕ :=
  s.readsLeft file * (8 * n + 6) + s.readerWork + ∑ i, s.threadWork i
    + if s.aborted then 0 else 1

variable {file garbage : List UInt8} {size : ℕ} {s s' : HashState n} {i : Fin n}

/-- Where only thread `i` moves, the sum changes by what it does. -/
theorem sum_threadWork (s s' : HashState n) (i : Fin n)
    (h : ∀ j, j ≠ i → s'.threadWork j = s.threadWork j) :
    ∑ j, s'.threadWork j + s.threadWork i
      = ∑ j, s.threadWork j + s'.threadWork i := by
  have hrest : ∑ j ∈ Finset.univ.erase i, s'.threadWork j
      = ∑ j ∈ Finset.univ.erase i, s.threadWork j :=
    Finset.sum_congr rfl fun j hj => h j (Finset.ne_of_mem_erase hj)
  have hs := Finset.add_sum_erase Finset.univ s.threadWork (Finset.mem_univ i)
  have hs' := Finset.add_sum_erase Finset.univ s'.threadWork (Finset.mem_univ i)
  omega

theorem threadStep_work (hstep : s.threadStep i = some s') :
    s'.threadWork i < s.threadWork i ∧
    (∀ j, j ≠ i → s'.threadWork j = s.threadWork j) ∧
    s'.reader = s.reader ∧ s'.reads = s.reads ∧ s'.offset = s.offset ∧
    s'.aborted = s.aborted := by
  have hother {pc : ThreadPc} {b : Bool} {j : Fin n} (hj : j ≠ i) :
      (Function.update s.thread i pc j).work
        + (if Function.update s.dataReady i b j then 7 else 0)
        = s.threadWork j := by
    rw [Function.update_of_ne hj, Function.update_of_ne hj, threadWork]
  have hthread {pc : ThreadPc} {j : Fin n} (hj : j ≠ i) :
      (Function.update s.thread i pc j).work
        + (if s.dataReady j then 7 else 0) = s.threadWork j := by
    rw [Function.update_of_ne hj, threadWork]
  unfold HashState.threadStep at hstep
  cases hpc : s.thread i with
  | waiting =>
      simp only [hpc] at hstep
      split at hstep
      case isTrue hready =>
          cases hstep
          refine ⟨?_, fun j hj => hother hj, rfl, rfl, rfl, rfl⟩
          simp [threadWork, hpc, hready, ThreadPc.work]
      case isFalse => cases hstep
  | woken =>
      simp only [hpc] at hstep
      split at hstep <;> cases hstep
      · refine ⟨?_, fun j hj => hthread hj, rfl, rfl, rfl, rfl⟩
        simp [threadWork, hpc, ThreadPc.work]
      · refine ⟨?_, fun j hj => hthread hj, rfl, rfl, rfl, rfl⟩
        simp [threadWork, hpc, ThreadPc.work]
  | exited =>
      simp only [hpc] at hstep
      cases hstep
  | _ =>
      simp only [hpc] at hstep
      cases hstep
      refine ⟨?_, fun j hj => hthread hj, rfl, rfl, rfl, rfl⟩
      simp [threadWork, hpc, ThreadPc.work]

theorem work_of_threadStep (hstep : s.threadStep i = some s') :
    s'.work file < s.work file := by
  obtain ⟨hlt, hother, hreader, hreads, hoffset, haborted⟩ :=
    threadStep_work hstep
  have hsum := sum_threadWork s s' i hother
  have hleft : s'.readsLeft file = s.readsLeft file := by
    rw [readsLeft, readsLeft, hreads, hoffset]
  have hwork : s'.readerWork = s.readerWork := by
    rw [readerWork, readerWork, hreader]
  rw [work, work, hleft, hwork, haborted]
  omega

/-- A read brings the file, or its end, nearer. -/
theorem readsLeft_lt (hmore : [] ∉ s.reads)
    (hreturns : readReturns file s.offset size = true) {data : List UInt8}
    (hdata : data.length = size) (hs' : s'.reads = s.reads ++ [data])
    (hoffset : s'.offset = s.offset + size) :
    s'.readsLeft file + 1 ≤ s.readsLeft file := by
  simp only [readReturns, Bool.and_eq_true, decide_eq_true_eq] at hreturns
  obtain ⟨⟨-, hle⟩, -⟩ := hreturns
  simp only [readsLeft, hs', hoffset, hmore, List.mem_append, false_or,
    List.mem_singleton, if_false]
  split
  case isTrue => omega
  case isFalse hne =>
      have hpos : 0 < data.length := List.length_pos_iff.mpr (Ne.symm hne)
      omega

/-- The reader pays for what its events set off. -/
theorem Ok.work_of_readerStep (h : s.Ok file)
    (hstep : s.readerStep file size garbage = some s') :
    s'.work file < s.work file := by
  unfold HashState.readerStep at hstep
  cases hpc : s.reader with
  | head =>
      simp only [hpc] at hstep
      split at hstep <;> cases hstep <;>
        simp [work, readerWork, readsLeft, threadWork, hpc]
  | waitRead =>
      simp only [hpc] at hstep
      split at hstep
      case isFalse => cases hstep
      case isTrue hreturns =>
          have hle := hreturns
          simp only [readReturns, Bool.and_eq_true, decide_eq_true_eq] at hle
          have hsize : ((file.drop s.offset).take size).length = size := by
            rw [List.length_take, List.length_drop]
            omega
          have hleft : s'.readsLeft file + 1 ≤ s.readsLeft file := by
            cases hstep
            exact readsLeft_lt (h.reading.more hpc) hreturns hsize rfl rfl
          have hmul : (s'.readsLeft file + 1) * (8 * n + 6)
              ≤ s.readsLeft file * (8 * n + 6) := Nat.mul_le_mul_right _ hleft
          rw [Nat.succ_mul] at hmul
          have hwork : s'.readerWork = 8 * n + 7 := by
            cases hstep
            rfl
          have hsum : ∑ i, s'.threadWork i = ∑ i, s.threadWork i := by
            cases hstep
            rfl
          have haborted : s'.aborted = s.aborted := by
            cases hstep
            rfl
          have hwork₀ : s.readerWork = 2 := by rw [readerWork, hpc]
          rw [work, work, hwork, hwork₀, hsum, haborted]
          omega
  | signal k =>
      simp only [hpc] at hstep
      split at hstep
      case isTrue hlt =>
          have hsum := sum_threadWork s s' ⟨k, hlt⟩ (by
            cases hstep
            intro j hj
            simp only [threadWork, Function.update_of_ne hj])
          have hthread : s'.threadWork ⟨k, hlt⟩ ≤ s.threadWork ⟨k, hlt⟩ + 7 := by
            cases hstep
            simp only [threadWork, Function.update_self, if_true]
            omega
          have hleft : s'.readsLeft file = s.readsLeft file := by
            cases hstep
            rfl
          have hwork : s'.readerWork = 8 * (n - (k + 1)) + 4 := by
            cases hstep
            rfl
          have haborted : s'.aborted = s.aborted := by
            cases hstep
            rfl
          have hwork₀ : s.readerWork = 8 * (n - k) + 4 := by rw [readerWork, hpc]
          rw [work, work, hleft, hwork, hwork₀, haborted]
          omega
      case isFalse hge =>
          cases hstep
          simp [work, readerWork, readsLeft, threadWork, hpc]
  | waitReady | join =>
      simp only [hpc] at hstep
      split at hstep
      case isTrue =>
          cases hstep
          simp [work, readerWork, readsLeft, threadWork, hpc]
      case isFalse => cases hstep
  | launch | setProc =>
      simp only [hpc] at hstep
      cases hstep
      simp [work, readerWork, readsLeft, threadWork, hpc]
  | done =>
      simp only [hpc] at hstep
      cases hstep

/-- A thread that has neither exited nor waits for an event can go on. -/
theorem threadStep_enabled (hpc : s.thread i ≠ .exited)
    (hready : s.thread i = .waiting → s.dataReady i = true) :
    ∃ s', s.threadStep i = some s' := by
  unfold HashState.threadStep
  cases hthread : s.thread i with
  | waiting => simp [hready hthread]
  | exited => exact absurd hthread hpc
  | woken =>
      simp only
      split <;> exact ⟨_, rfl⟩
  | _ => exact ⟨_, rfl⟩

/-- While the reader waits for the threads to be ready, one that is not can go
on. -/
theorem Ok.waitReady_enabled (h : s.Ok file) (hpc : s.reader = .waitReady)
    (hready : s.threadReady i = false) : ∃ s', s.threadStep i = some s' := by
  have hgiven := h.threads i
  have hclear : s.cleared i = false := by rw [cleared, hpc]
  rw [hready, hclear] at hgiven
  apply threadStep_enabled
  · intro hexited
    rw [hexited] at hgiven
    obtain ⟨-, -, before, hchunks⟩ := hgiven
    -- the chunk that ends a thread is the last one, and is not given out yet
    simp only [given, hpc, ← List.dropLast_eq_take] at hchunks
    apply h.reading.going
    rw [hchunks]
    simp
  · intro hwaiting
    rw [hwaiting] at hgiven
    obtain ⟨-, hfalse, -⟩ | ⟨⟨hdata, -⟩, -⟩ := hgiven
    · cases hfalse
    · exact hdata

/-- While the reader waits for the threads to exit, so can one that has not. -/
theorem Ok.join_enabled (h : s.Ok file) (hpc : s.reader = .join)
    (hexited : s.thread i ≠ .exited) : ∃ s', s.threadStep i = some s' := by
  apply threadStep_enabled hexited
  intro hwaiting
  have hgiven := h.threads i
  rw [hwaiting] at hgiven
  obtain ⟨-, -, hcaught⟩ | ⟨⟨hdata, -⟩, -⟩ := hgiven
  · have hgoing := hcaught.going
    simp only [given, hpc, List.take_length] at hgoing
    exact absurd (h.reading.ended (.inl hpc)) hgoing
  · exact hdata

/-- What a read can return next: all that fits. -/
theorem readReturns_min (h : s.Ok file) : readReturns file s.offset
    (min hashBufferSize (file.length - s.offset)) = true := by
  have hle := h.reading.offset_le
  have hpos : 0 < hashBufferSize := by decide
  simp only [readReturns, Bool.and_eq_true, decide_eq_true_eq]
  omega

end HashState

/-- Until the reader is through or gives up, somebody can take a step. -/
theorem hashSystem_next {file : List UInt8} {s : HashState n} (h : s.Ok file)
    (haborted : s.aborted = false) (hdone : s.reader ≠ .done) :
    ∃ a s', a ≠ .abort ∧ (hashSystem n file).step a s = some s' := by
  have hreader (size : ℕ) (hstep : ∃ s', s.readerStep file size [] = some s') :
      ∃ a s', a ≠ .abort ∧ (hashSystem n file).step a s = some s' := by
    obtain ⟨s', hs'⟩ := hstep
    exact ⟨.reader size [], s', by simp, by simpa [hashSystem, haborted] using hs'⟩
  have hthread {i : Fin n} (hstep : ∃ s', s.threadStep i = some s') :
      ∃ a s', a ≠ .abort ∧ (hashSystem n file).step a s = some s' := by
    obtain ⟨s', hs'⟩ := hstep
    exact ⟨.thread i, s', by simp, hs'⟩
  cases hpc : s.reader with
  | waitRead =>
      apply hreader (min hashBufferSize (file.length - s.offset))
      simp only [HashState.readerStep, hpc, HashState.readReturns_min h, if_true]
      exact ⟨_, rfl⟩
  | waitReady =>
      by_cases hready : ∀ i, s.threadReady i = true
      · apply hreader 0
        simp only [HashState.readerStep, hpc, if_pos hready]
        exact ⟨_, rfl⟩
      · obtain ⟨i, hi⟩ := not_forall.mp hready
        exact hthread (h.waitReady_enabled hpc (Bool.not_eq_true _ ▸ hi))
  | join =>
      by_cases hexited : ∀ i, s.thread i = .exited
      · apply hreader 0
        simp only [HashState.readerStep, hpc, if_pos hexited]
        exact ⟨_, rfl⟩
      · obtain ⟨i, hi⟩ := not_forall.mp hexited
        exact hthread (h.join_enabled hpc hi)
  | head | signal k =>
      apply hreader 0
      simp only [HashState.readerStep, hpc]
      split <;> exact ⟨_, rfl⟩
  | launch | setProc =>
      apply hreader 0
      simp only [HashState.readerStep, hpc]
      exact ⟨_, rfl⟩
  | done => exact absurd hpc hdone

theorem hashSystem_work {file : List UInt8} (s : HashState n)
    (a : HashAction n) (s' : HashState n) (h : (hashSystem n file).Reachable s)
    (hstep : (hashSystem n file).step a s = some s') :
    s'.work file < s.work file := by
  cases a with
  | reader size garbage =>
      simp only [hashSystem] at hstep
      split at hstep
      case isTrue => cases hstep
      case isFalse => exact (hashSystem_ok h).work_of_readerStep hstep
  | thread i => exact HashState.work_of_threadStep hstep
  | abort =>
      simp only [hashSystem] at hstep
      split at hstep
      case isTrue => cases hstep
      case isFalse hgoing =>
          have haborted : s.aborted = false := by
            simpa using (not_or.mp hgoing).1
          cases hstep
          simp [HashState.work, HashState.readerWork, HashState.readsLeft,
            HashState.threadWork, haborted]

theorem hashSystem_aborted {file : List UInt8} {s s' : HashState n}
    {a : HashAction n} (ha : a ≠ .abort)
    (hstep : (hashSystem n file).step a s = some s') :
    s'.aborted = s.aborted := by
  cases a with
  | reader size garbage =>
      simp only [hashSystem, HashState.readerStep] at hstep
      split at hstep
      case isTrue => cases hstep
      case isFalse =>
          cases hpc : s.reader with
          | launch | setProc =>
              simp only [hpc] at hstep
              cases hstep
              rfl
          | done =>
              simp only [hpc] at hstep
              cases hstep
          | _ =>
              simp only [hpc] at hstep
              split at hstep <;> cases hstep <;> rfl
  | thread i => exact (HashState.threadStep_work hstep).2.2.2.2.2
  | abort => exact absurd rfl ha

/-- However far the reader and the threads are, they can be run to the end. -/
theorem hashSystem_finishes {file : List UInt8} {s : HashState n}
    (h : (hashSystem n file).Reachable s) (haborted : s.aborted = false) :
    ∃ as s', (hashSystem n file).run as s = some s' ∧ s'.reader = .done := by
  obtain ⟨as, s', hrun, -, hdone⟩ := h.finishes (fun t => t.work file)
    (fun t ht (hgoing : t.aborted = false) (hdone : ¬t.reader = .done) => by
      obtain ⟨a, t', ha, hstep⟩ := hashSystem_next (hashSystem_ok ht) hgoing hdone
      exact ⟨a, t', hstep, (hashSystem_aborted ha hstep).trans hgoing,
        hashSystem_work t a t' ht hstep⟩) haborted
  exact ⟨as, s', hrun, hdone⟩

/-- **The reader and the hash threads.** In every state they can come to, the
read in flight does not go to a buffer that a thread may still process; each
thread has made one call for each of the first reads, in their order. Unless
the reader has given up, somebody can take a step until it is through, which
it is after so many steps at most; and then the reads were the file, and every
thread has written each of them once and has finished once, at the end. -/
theorem hashThread_protocol {file : List UInt8} {s : HashState n}
    (h : (hashSystem n file).Reachable s) :
    (∀ i bufnum, s.reading = some bufnum → s.processing i ≠ some bufnum) ∧
    (∀ i, s.calls i <+: s.reads.map hashCall) ∧
    (s.reader = .done → ∃ chunks : List (List UInt8),
      chunks.flatten = file ∧ [] ∉ chunks ∧
      ∀ i, s.calls i = chunks.map .write ++ [.final]) ∧
    (s.aborted = false → s.reader ≠ .done →
      ∃ a s', a ≠ .abort ∧ (hashSystem n file).step a s = some s') ∧
    (∀ as s', (hashSystem n file).run as s = some s' →
      as.length ≤ s.work file) := by
  have hok := hashSystem_ok h
  refine ⟨hok.processing_ne, fun i => ?_, hok.done, hashSystem_next hok, ?_⟩
  · refine List.IsPrefix.trans (Given.calls_prefix (hok.threads i)) ?_
    rw [List.map_take]
    exact List.take_prefix _ _
  · intro as s' hrun
    exact le_trans (Nat.le_add_right _ _) (h.run_length hashSystem_work hrun)

/-- The state in which the loop starts, nothing having been read before. -/
def HashState.start (n : ℕ) : HashState n where
  buffer := fun _ => []
  readSize := fun _ => 1
  procBufnum := 1
  dataReady := fun _ => false
  threadReady := fun _ => false
  reader := .head
  readBufnum := 0
  offset := 0
  reading := some 0
  reads := []
  aborted := false
  thread := fun _ => .starting
  calls := fun _ => []

theorem HashState.start_started : (HashState.start n).Started :=
  ⟨rfl, rfl, fun _ => rfl, fun _ => rfl, rfl, rfl, rfl, rfl, rfl, rfl,
    fun _ => rfl, fun _ => rfl⟩

theorem hashThread_protocol_three_bytes : ∃ s : HashState 2,
    (hashSystem 2 [1, 2, 3]).Reachable s ∧
    ∃ chunks : List (List UInt8), chunks.flatten = [1, 2, 3] ∧ [] ∉ chunks ∧
      ∀ i, s.calls i = chunks.map .write ++ [.final] := by
  have hstart : (hashSystem 2 [1, 2, 3]).Reachable (HashState.start 2) :=
    .init HashState.start_started
  obtain ⟨as, s, hrun, hdone⟩ := hashSystem_finishes hstart rfl
  have hs : (hashSystem 2 [1, 2, 3]).Reachable s := hstart.run hrun
  exact ⟨s, hs, (hashThread_protocol hs).2.2.1 hdone⟩

end Nawam
