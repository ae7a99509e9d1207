import Nawam.Base.Achieves
import Nawam.Base.HeapBlock
import Nawam.Parser.LocReader
import Mathlib.Logic.Function.Basic

/-!
# The line buffer of a localization file

The loop of `get_loc_data_file` on its buffer, with each access checked against the size that the
buffer has then. A turn stores two characters at most, and at its end the buffer is made larger
unless three more fit. What is read is in front of the position.

What a line is passed to may change the buffer, and what the heap answers to `realloc` is up to
it. On the bytes in front of the position the loop is the one of `LocReader`.
-/

namespace Nawam

open Ascii

/-! ## Source -/

/-- What a turn of the loop gets: the character, none for `EOF`, and whether it is behind the end
of the section; the buffer as `get_loc_data_line` leaves it; and what the heap answers. -/
structure LocTurn where
  c : Option UInt8
  past : Bool
  left : ℕ → UInt8
  heap : HeapAnswer UInt8

/-- The variables of the loop that have to do with the buffer -/
structure LocBuffer where
  buf : List UInt8
  bufsize : ℕ
  i : ℕ
  r : ℕ
  eol : Bool
  escapeSequence : Bool

namespace LocBuffer

/-- `malloc(bufsize)`, and the variables before the first turn -/
def init (heap : HeapAnswer UInt8) : LocBuffer :=
  ⟨(List.range 1024).map heap.garbage, 1024, 0, 0, false, false⟩

/-- `buf[i++] = c` -/
def push (lb : LocBuffer) (c : UInt8) : C LocBuffer := do
  let buf ← store lb.buf lb.i c
  .ok { lb with buf, i := lb.i + 1 }

/-- `get_loc_data_line(buf)`, which gets the buffer and may change it -/
def pass (lb : LocBuffer) (left : ℕ → UInt8) : LocBuffer :=
  { lb with buf := (List.range lb.buf.length).map left }

/-- Strip trailing spaces, from `buf[r]` down to `buf[1]` -/
def stripLoop (buf : List UInt8) : (r : ℕ) → C ℕ
  | 0 => .ok 0
  | r + 1 => do
      let c ← load buf (r + 1)
      if isBlank c then stripLoop buf r else .ok (r + 1)

/-- The end of a line. An `r` of -1 becomes zero. -/
def endLine (lb : LocBuffer) : C LocBuffer := do
  let buf ← store lb.buf lb.i nul
  if lb.eol then .ok { lb with buf }
  else do
    let r ← stripLoop buf (lb.i - 1)
    .ok { lb with buf, r, eol := true }

def readEscaped (lb : LocBuffer) (c : UInt8) : C LocBuffer :=
  if c = 110 then do
    let lb ← lb.push cr
    lb.push lf
  else if c = quote then do
    let lb ← lb.push backslash
    lb.push quote
  else if c = backslash then lb.push backslash
  else .ok lb

/-- Whether a line is joined to the one before -/
def collates (lb : LocBuffer) (c : UInt8) : C Bool :=
  if lb.eol ∧ c = quote then do
    let last ← load lb.buf lb.r
    .ok (last = quote)
  else .ok false

/-- A character that is neither blank nor a line end nor escaped: the variables, and the buffer
where it is passed -/
def readText (lb : LocBuffer) (left : ℕ → UInt8) (c : UInt8) :
    C (LocBuffer × Option (List UInt8)) := do
  let joined ← lb.collates c
  if joined then .ok ({ lb with i := lb.r, eol := false }, none)
  else if lb.eol then do
    let passed := lb.buf
    let lb ← push { lb.pass left with eol := false, i := 0, r := 0 } c
    .ok (lb, some passed)
  else do
    let lb ← lb.push c
    .ok (lb, none)

/-- The `switch` for a character -/
def read (lb : LocBuffer) (left : ℕ → UInt8) (c : UInt8) : C (LocBuffer × Option (List UInt8)) :=
  if c = cr ∨ c = lf then
    if lb.escapeSequence then .ok ({ lb with escapeSequence := false }, none)
    else do
      let lb ← lb.endLine
      .ok (lb, none)
  else if isBlank c then
    if lb.escapeSequence then .ok ({ lb with escapeSequence := false }, none)
    else if lb.eol then .ok (lb, none)
    else do
      let lb ← lb.push c
      .ok (lb, none)
  else if lb.escapeSequence then do
    let lb ← lb.readEscaped c
    .ok ({ lb with escapeSequence := false }, none)
  else if c = backslash then .ok ({ lb with escapeSequence := true }, none)
  else lb.readText left c

/-- Have at least 2 chars extra; none where the buffer cannot be made larger. -/
def grow (lb : LocBuffer) (heap : HeapAnswer UInt8) : Option LocBuffer :=
  if lb.bufsize - 2 ≤ lb.i then
    let bufsize := lb.bufsize * 2
    if 32768 < bufsize then none
    else if heap.grants bufsize then
      some { lb with bufsize, buf := reallocBlock heap lb.buf bufsize }
    else none
  else some lb

/-- A turn of the loop: the variables unless it was the last one, and the buffer where it is
passed -/
def turn (lb : LocBuffer) (t : LocTurn) : C (Option LocBuffer × Option (List UInt8)) :=
  match t.c with
  | none => do
      let buf ← store lb.buf lb.i nul
      .ok (none, some buf)
  | some c => do
      let (lb, passed) ← lb.read t.left c
      .ok (if t.past then none else lb.grow t.heap, passed)

end LocBuffer

/-- The loop, for so many turns if it does not end before -/
def locRun : List LocTurn → LocBuffer → C (Option LocBuffer × List (List UInt8))
  | [], lb => .ok (some lb, [])
  | t :: turns, lb => do
      let (lb, passed) ← lb.turn t
      match lb with
      | none => .ok (none, passed.toList)
      | some lb => do
          let (lb, lines) ← locRun turns lb
          .ok (lb, passed.toList ++ lines)

/-! ## The accesses -/

namespace LocBuffer

variable {lb : LocBuffer} {left : ℕ → UInt8} {c : UInt8}

/-- The buffer has the size that the loop takes it to have, and what was read is in it. -/
structure InBuffer (lb : LocBuffer) : Prop where
  length_eq : lb.buf.length = lb.bufsize
  r_le : lb.r ≤ lb.i
  i_lt : lb.i < lb.bufsize

/-- At the start of a turn, three characters fit. -/
structure Roomy (lb : LocBuffer) : Prop extends lb.InBuffer where
  room : lb.i + 3 ≤ lb.bufsize

/-- So many characters have been added. -/
structure Later (n : ℕ) (lb lb' : LocBuffer) : Prop where
  length_eq : lb'.buf.length = lb.buf.length
  bufsize_eq : lb'.bufsize = lb.bufsize
  i_le : lb'.i ≤ lb.i + n
  r_le : lb'.r ≤ lb'.i

theorem push_eq (h : lb.i < lb.buf.length) (c : UInt8) :
    lb.push c = .ok { lb with buf := lb.buf.set lb.i c, i := lb.i + 1 } := by
  rw [push, store, if_pos h, C.ok_bind]

theorem stripLoop_achieves {buf : List UInt8} : ∀ {r : ℕ}, r < buf.length →
    Achieves (stripLoop buf r) fun r' => r' ≤ r := by
  intro r
  induction r with
  | zero => exact fun _ => .ok le_rfl
  | succ r ih =>
      intro h
      rw [stripLoop]
      refine (Achieves.load h).bind fun b _ => ?_
      refine .ite (fun _ => (ih (by omega)).mono fun r' hr' => by omega) (fun _ => .ok le_rfl)

theorem endLine_achieves (h : lb.InBuffer) : Achieves lb.endLine (Later 0 lb) := by
  have hi : lb.i < lb.buf.length := h.length_eq ▸ h.i_lt
  have hlength : (lb.buf.set lb.i nul).length = lb.buf.length := List.length_set ..
  rw [endLine, store, if_pos hi, C.ok_bind]
  refine .ite (fun _ => .ok ⟨hlength, rfl, le_rfl, h.r_le⟩) (fun _ => ?_)
  refine (stripLoop_achieves (r := lb.i - 1) (by omega)).bind fun r hr => ?_
  exact .ok ⟨hlength, rfl, le_rfl, hr.trans (Nat.sub_le ..)⟩

theorem push_achieves (h : lb.i < lb.buf.length) (hr : lb.r ≤ lb.i) (c : UInt8) :
    Achieves (lb.push c) (Later 1 lb) := by
  rw [push_eq h]
  exact .ok ⟨List.length_set .., rfl, le_rfl, Nat.le_succ_of_le hr⟩

theorem Later.mono {m n : ℕ} {lb' : LocBuffer} (h : Later m lb lb') (hmn : m ≤ n) :
    Later n lb lb' :=
  ⟨h.length_eq, h.bufsize_eq, h.i_le.trans (Nat.add_le_add_left hmn _), h.r_le⟩

/-- Two more characters do not fill the buffer. -/
theorem Later.inBuffer {n : ℕ} {lb' : LocBuffer} (hlater : Later n lb lb') (h : lb.Roomy)
    (hn : n ≤ 2) : lb'.InBuffer := by
  have hsize := hlater.bufsize_eq
  have hi := hlater.i_le
  have hroom := h.room
  exact ⟨(hlater.length_eq.trans h.length_eq).trans hsize.symm, hlater.r_le, by omega⟩

/-- An escape sequence stores two characters at most. -/
theorem readEscaped_achieves (h : lb.Roomy) (c : UInt8) :
    Achieves (lb.readEscaped c) (Later 2 lb) := by
  have hlength := h.length_eq
  have hroom := h.room
  have htwo (a b : UInt8) : Achieves (do let lb ← lb.push a; lb.push b) (Later 2 lb) := by
    refine (push_achieves (by omega) h.r_le a).bind fun lb₁ h₁ => ?_
    have hlength₁ := h₁.length_eq
    have hi := h₁.i_le
    refine (push_achieves (by omega) h₁.r_le b).mono fun lb₂ h₂ => ?_
    have hi₂ := h₂.i_le
    exact ⟨h₂.length_eq.trans hlength₁, h₂.bufsize_eq.trans h₁.bufsize_eq, by omega, h₂.r_le⟩
  rw [readEscaped]
  refine .ite (fun _ => htwo cr lf) fun _ => ?_
  refine .ite (fun _ => htwo backslash quote) fun _ => ?_
  refine .ite (fun _ => ?_) fun _ => ?_
  · exact (push_achieves (by omega) h.r_le backslash).mono fun lb' h' => h'.mono (by decide)
  · exact .ok ⟨rfl, rfl, Nat.le_add_right _ 2, h.r_le⟩

theorem collates_achieves (h : lb.InBuffer) (c : UInt8) :
    Achieves (lb.collates c) fun _ => True := by
  have hlength := h.length_eq
  have hi := h.i_lt
  have hr := h.r_le
  rw [collates]
  refine .ite (fun _ => ?_) (fun _ => .ok trivial)
  exact (Achieves.load (by omega)).bind fun _ _ => .ok trivial

theorem readText_achieves (h : lb.Roomy) (left : ℕ → UInt8) (c : UInt8) :
    Achieves (lb.readText left c) fun r => Later 2 lb r.1 := by
  have hlength := h.length_eq
  have hroom := h.room
  have hleft : ((List.range lb.buf.length).map left).length = lb.buf.length := by
    rw [List.length_map, List.length_range]
  rw [readText]
  refine (collates_achieves h.toInBuffer c).bind fun joined _ => ?_
  refine .ite (fun _ => .ok ?_) fun _ => .ite (fun _ => ?_) fun _ => ?_
  · exact ⟨rfl, rfl, h.r_le.trans (Nat.le_add_right _ 2), le_rfl⟩
  · -- the line begins at the front again
    have hfront : 0 < ((List.range lb.buf.length).map left).length := by omega
    refine (@push_achieves { lb.pass left with eol := false, i := 0, r := 0 } hfront le_rfl c).bind
      fun lb' h' => .ok ?_
    have hi : lb'.i ≤ 0 + 1 := h'.i_le
    exact ⟨h'.length_eq.trans hleft, h'.bufsize_eq, (show lb'.i ≤ lb.i + 2 by omega), h'.r_le⟩
  · exact (push_achieves (by omega) h.r_le c).bind fun lb' h' => .ok (h'.mono (by decide))

theorem read_achieves (h : lb.Roomy) (left : ℕ → UInt8) (c : UInt8) :
    Achieves (lb.read left c) fun r => Later 2 lb r.1 := by
  have hlength := h.length_eq
  have hroom := h.room
  have hstay {lb' : LocBuffer} (hbuf : lb'.buf = lb.buf) (hsize : lb'.bufsize = lb.bufsize)
      (hi : lb'.i = lb.i) (hr : lb'.r = lb.r) : Later 2 lb lb' :=
    ⟨by rw [hbuf], hsize, by omega, by rw [hi, hr]; exact h.r_le⟩
  rw [read]
  refine .ite (fun _ => ?_) fun _ => .ite (fun _ => ?_) fun _ => .ite (fun _ => ?_) fun _ => ?_
  · refine .ite (fun _ => .ok (hstay rfl rfl rfl rfl)) fun _ => ?_
    exact (endLine_achieves h.toInBuffer).bind fun lb' h' => .ok (h'.mono (Nat.zero_le 2))
  · refine .ite (fun _ => .ok (hstay rfl rfl rfl rfl)) fun _ => ?_
    refine .ite (fun _ => .ok (hstay rfl rfl rfl rfl)) fun _ => ?_
    exact (push_achieves (by omega) h.r_le c).bind fun lb' h' => .ok (h'.mono (by decide))
  · refine (readEscaped_achieves h c).bind fun lb' h' => .ok ?_
    exact ⟨h'.length_eq, h'.bufsize_eq, h'.i_le, h'.r_le⟩
  · refine .ite (fun _ => .ok (hstay rfl rfl rfl rfl)) fun _ => ?_
    exact readText_achieves h left c

/-- What is stored in a turn fits, and in a buffer that is made larger three more do. -/
theorem Later.grow {lb' lb'' : LocBuffer} {heap : HeapAnswer UInt8} (h : lb.Roomy)
    (hlater : Later 2 lb lb') (hgrow : lb'.grow heap = some lb'') : lb''.Roomy := by
  have hlength := hlater.length_eq.trans h.length_eq
  have hsize := hlater.bufsize_eq
  have hi := hlater.i_le
  have hroom := h.room
  rw [LocBuffer.grow] at hgrow
  split at hgrow
  case isFalse hfits =>
      obtain rfl := Option.some.inj hgrow
      exact ⟨⟨by omega, hlater.r_le, by omega⟩, by omega⟩
  case isTrue hfull =>
      dsimp only at hgrow
      split at hgrow
      case isTrue => cases hgrow
      case isFalse =>
          split at hgrow
          case isFalse => cases hgrow
          case isTrue =>
              obtain rfl := Option.some.inj hgrow
              have hblock := reallocBlock_length heap
                (show lb'.buf.length ≤ lb'.bufsize * 2 by omega)
              refine ⟨⟨hblock, hlater.r_le, ?_⟩, ?_⟩
              · show lb'.i < lb'.bufsize * 2
                omega
              · show lb'.i + 3 ≤ lb'.bufsize * 2
                omega

/-- A turn makes no access outside of the buffer, and the next one has room again. -/
theorem turn_achieves (h : lb.Roomy) (t : LocTurn) :
    Achieves (lb.turn t) fun r => ∀ lb' ∈ r.1, lb'.Roomy := by
  have hi : lb.i < lb.buf.length := h.length_eq ▸ h.i_lt
  rw [turn]
  cases t.c with
  | none =>
      dsimp only
      rw [store, if_pos hi, C.ok_bind]
      exact .ok (by rintro _ ⟨⟩)
  | some c =>
      dsimp only
      refine (read_achieves h t.left c).bind fun r hr => .ok fun lb' hlb' => ?_
      by_cases hpast : t.past = true
      · rw [if_pos hpast] at hlb'
        cases hlb'
      · rw [if_neg hpast] at hlb'
        exact hr.grow h hlb'

theorem init_roomy (heap : HeapAnswer UInt8) : (init heap).Roomy where
  length_eq := by
    rw [init, List.length_map, List.length_range]
  r_le := le_rfl
  i_lt := by
    show 0 < 1024
    decide
  room := by
    show 0 + 3 ≤ 1024
    decide

end LocBuffer

/-- From any turn on, no access is outside of the buffer. -/
theorem locRun_achieves : ∀ {turns : List LocTurn} {lb : LocBuffer}, lb.Roomy →
    Achieves (locRun turns lb) fun r => ∀ lb' ∈ r.1, lb'.Roomy := by
  intro turns
  induction turns with
  | nil =>
      intro lb h
      refine .ok ?_
      rintro _ ⟨⟩
      exact h
  | cons t turns ih =>
      intro lb h
      rw [locRun]
      refine (LocBuffer.turn_achieves h t).bind ?_
      rintro ⟨_ | lb', passed⟩ hlb'
      · exact .ok nofun
      · refine (ih (hlb' lb' rfl)).bind fun r hr => ?_
        exact .ok hr

/-- Whatever is read, each access of the loop is to an index below the size of the buffer. -/
theorem locRun_init (heap : HeapAnswer UInt8) (turns : List LocTurn) :
    ∃ lb lines, locRun turns (.init heap) = .ok (lb, lines) ∧
      ∀ lb' ∈ lb, lb'.buf.length = lb'.bufsize ∧ lb'.i < lb'.bufsize ∧ lb'.r < lb'.bufsize := by
  obtain ⟨⟨lb, lines⟩, hrun, hroomy⟩ : Achieves (locRun turns (.init heap)) _ :=
    locRun_achieves (LocBuffer.init_roomy heap)
  refine ⟨lb, lines, hrun, fun lb' hlb' => ?_⟩
  have h := hroomy lb' hlb'
  exact ⟨h.length_eq, h.i_lt, lt_of_le_of_lt h.r_le h.i_lt⟩

/-! ## The bytes in front of the position -/

/-- What `LocReader` has is in the buffer. Where a line has ended, what its end was is in front of
the position or the line has its terminator. -/
structure BufferReads (lb : LocBuffer) (rd : LocReader) : Prop where
  buf : rd.buf = lb.buf.take lb.i
  terminated : rd.terminated = true → lb.buf[lb.i]? = some nul
  r : rd.r = lb.r
  eol : rd.eol = lb.eol
  escapeSequence : rd.escapeSequence = lb.escapeSequence
  bufsize : rd.bufsize = lb.bufsize
  ended : lb.eol = true → lb.r < lb.i ∨ rd.terminated = true

namespace LocBuffer

variable {lb : LocBuffer} {rd : LocReader} {left : ℕ → UInt8} {c : UInt8}

theorem take_set_succ {buf : List UInt8} {i : ℕ} (h : i < buf.length) (c : UInt8) :
    (buf.set i c).take (i + 1) = buf.take i ++ [c] := by
  rw [List.take_set, List.take_succ_eq_append_getElem h, List.set_append_right _ _ (by simp),
    List.length_take, min_eq_left h.le, Nat.sub_self]
  rfl

theorem push_reads (h : lb.InBuffer) (hreads : BufferReads lb rd) (c : UInt8) :
    ∃ lb', lb.push c = .ok lb' ∧ BufferReads lb' (rd.push [c]) := by
  have hi : lb.i < lb.buf.length := h.length_eq ▸ h.i_lt
  refine ⟨_, push_eq hi c, ?_, ?_, hreads.r, hreads.eol, hreads.escapeSequence, hreads.bufsize,
    fun _ => .inl (Nat.lt_succ_of_le h.r_le)⟩
  · rw [LocReader.push, hreads.buf]
    exact (take_set_succ hi c).symm
  · intro hterminated
    rw [LocReader.push, List.isEmpty_cons, Bool.and_false] at hterminated
    cases hterminated

theorem stripLoop_eq (back : List UInt8) : ∀ front : List UInt8,
    stripLoop (front ++ back) (front.length - 1) =
      .ok ((front.rdropWhile isBlank).length - 1) := by
  intro front
  induction front using List.reverseRecOn generalizing back with
  | nil => rfl
  | append_singleton front c ih =>
      rw [List.length_append, List.length_singleton, Nat.add_sub_cancel]
      cases hfront : front.length with
      | zero =>
          obtain rfl := List.length_eq_zero_iff.mp hfront
          rw [List.nil_append, List.rdropWhile_singleton]
          split <;> rfl
      | succ k =>
          have hload := load_append_cons front c back
          rw [hfront] at hload
          rw [List.append_assoc, List.singleton_append, stripLoop, hload, C.ok_bind]
          by_cases hblank : isBlank c = true
          · have hrest := ih (c :: back)
            rw [hfront, Nat.add_sub_cancel] at hrest
            rw [if_pos hblank, hrest, List.rdropWhile_concat_pos _ _ _ hblank]
          · rw [if_neg hblank, List.rdropWhile_concat_neg _ _ _ hblank, List.length_append, hfront]
            rfl

theorem endLine_reads (h : lb.InBuffer) (hreads : BufferReads lb rd) :
    ∃ lb', lb.endLine = .ok lb' ∧ BufferReads lb' rd.endLine := by
  have hi : lb.i < lb.buf.length := h.length_eq ▸ h.i_lt
  have hbuf : (lb.buf.set lb.i nul).take lb.i = lb.buf.take lb.i := List.take_set_of_le le_rfl
  have hnul : (lb.buf.set lb.i nul)[lb.i]? = some nul := List.getElem?_set_self hi
  rw [endLine, store, if_pos hi, C.ok_bind]
  by_cases heol : lb.eol = true
  · rw [if_pos heol]
    refine ⟨_, rfl, ?_, fun _ => hnul, ?_, heol.symm, hreads.escapeSequence, hreads.bufsize,
      fun _ => .inr rfl⟩
    · rw [LocReader.endLine, hreads.buf]
      exact hbuf.symm
    · rw [LocReader.endLine]
      dsimp only
      rw [if_pos (hreads.eol.trans heol)]
      exact hreads.r
  · have hlength : (lb.buf.take lb.i).length = lb.i := List.length_take_of_le hi.le
    have hstrip := stripLoop_eq ((lb.buf.set lb.i nul).drop lb.i) (lb.buf.take lb.i)
    rw [← hbuf, List.take_append_drop, hbuf, hlength] at hstrip
    rw [if_neg heol, hstrip, C.ok_bind]
    refine ⟨_, rfl, ?_, fun _ => hnul, ?_, rfl, hreads.escapeSequence, hreads.bufsize,
      fun _ => .inr rfl⟩
    · rw [LocReader.endLine, hreads.buf]
      exact hbuf.symm
    · rw [LocReader.endLine]
      dsimp only
      rw [if_neg (hreads.eol ▸ heol), hreads.buf]

theorem line_eq (hreads : BufferReads lb rd) : rd.line (lb.buf.drop lb.i) = cstr lb.buf := by
  rw [LocReader.line, hreads.buf]
  by_cases hterminated : rd.terminated = true
  · obtain ⟨hi, hnul⟩ := List.getElem?_eq_some_iff.mp (hreads.terminated hterminated)
    have hsplit := List.take_append_drop lb.i lb.buf
    rw [List.drop_eq_getElem_cons hi, hnul] at hsplit
    rw [if_pos hterminated]
    conv_rhs => rw [← hsplit]
    rw [cstr, cstr, List.takeWhile_append]
    split
    case isTrue hall =>
        rw [(List.takeWhile_prefix _).eq_of_length hall, List.takeWhile_cons_of_neg (by decide),
          List.append_nil]
    case isFalse => rfl
  · rw [if_neg hterminated, List.take_append_drop]

theorem readEscaped_reads (h : lb.Roomy) (hreads : BufferReads lb rd) (c : UInt8) :
    ∃ lb', lb.readEscaped c = .ok lb' ∧ BufferReads lb' (rd.push (LocReader.escaped c)) := by
  have htwo (a b : UInt8) : ∃ lb', (do let lb ← lb.push a; lb.push b) = .ok lb' ∧
      BufferReads lb' (rd.push [a, b]) := by
    obtain ⟨lb₁, hpush₁, hreads₁⟩ := push_reads h.toInBuffer hreads a
    have hlater : Achieves (lb.push a) (Later 1 lb) :=
      push_achieves (h.length_eq ▸ h.i_lt) h.r_le a
    rw [hpush₁] at hlater
    have hnext := (Achieves.ok_iff.mp hlater).inBuffer h (by decide)
    obtain ⟨lb₂, hpush₂, hreads₂⟩ := push_reads hnext hreads₁ b
    refine ⟨lb₂, by rw [hpush₁, C.ok_bind, hpush₂], ?_⟩
    have hpush : (rd.push [a]).push [b] = rd.push [a, b] := by
      simp [LocReader.push]
    exact hpush ▸ hreads₂
  rw [readEscaped, LocReader.escaped]
  split
  · exact htwo cr lf
  split
  · exact htwo backslash quote
  split
  · exact push_reads h.toInBuffer hreads backslash
  · refine ⟨lb, rfl, ?_⟩
    have hpush : rd.push [] = rd := by
      simp [LocReader.push]
    exact hpush.symm ▸ hreads

/-- A line is joined to the one before if it is so in `LocReader`. -/
theorem collates_eq (h : lb.InBuffer) (hreads : BufferReads lb rd) (c : UInt8) :
    lb.collates c = .ok (decide (rd.eol = true ∧ c = quote ∧ rd.buf[rd.r]? = some quote)) := by
  have hr : lb.r < lb.buf.length := lt_of_le_of_lt h.r_le (h.length_eq ▸ h.i_lt)
  rw [collates, hreads.eol]
  by_cases hquote : lb.eol = true ∧ c = quote
  · have hget : rd.buf[rd.r]? = some quote ↔ lb.buf[lb.r] = quote := by
      rw [hreads.buf, hreads.r]
      by_cases hlt : lb.r < lb.i
      · rw [List.getElem?_take_of_lt hlt, List.getElem?_eq_getElem hr, Option.some_inj]
      · -- an empty line, in front of which there is its terminator only
        have hi : lb.r = lb.i := le_antisymm h.r_le (Nat.le_of_not_lt hlt)
        have hnul := hreads.terminated ((hreads.ended hquote.1).resolve_left hlt)
        rw [← hi, List.getElem?_eq_getElem hr] at hnul
        rw [List.getElem?_take, if_neg hlt, Option.some_inj.mp hnul]
        exact ⟨nofun, fun h => absurd h (by decide)⟩
    rw [if_pos hquote, load_of_lt hr, C.ok_bind]
    simp only [hget, hquote.1, hquote.2, true_and]
  · rw [if_neg hquote]
    have hneg : ¬(lb.eol = true ∧ c = quote ∧ rd.buf[rd.r]? = some quote) :=
      fun hall => hquote ⟨hall.1, hall.2.1⟩
    rw [decide_eq_false hneg]

/-- A character, and the line that is passed: what `LocReader` does, where what is behind a line
that has no terminator is in the buffer. -/
def ReadsNext (r : C (LocBuffer × Option (List UInt8)))
    (r' : LocReader × Option (List UInt8)) : Prop :=
  ∃ lb passed, r = .ok (lb, passed) ∧ BufferReads lb r'.1 ∧ passed.map cstr = r'.2

theorem readText_reads (h : lb.Roomy) (hreads : BufferReads lb rd) (left : ℕ → UInt8) (c : UInt8) :
    ReadsNext (lb.readText left c) (rd.readText (lb.buf.drop lb.i) c) := by
  have hroom := h.room
  have hlength := h.length_eq
  have hi := h.i_lt
  rw [readText, collates_eq h.toInBuffer hreads, C.ok_bind, LocReader.readText]
  by_cases hjoin : rd.eol = true ∧ c = quote ∧ rd.buf[rd.r]? = some quote
  · rw [if_pos hjoin, if_pos (decide_eq_true hjoin)]
    refine ⟨_, none, rfl, ⟨?_, (absurd · Bool.false_ne_true), hreads.r, rfl, hreads.escapeSequence,
      hreads.bufsize, (absurd · Bool.false_ne_true)⟩, rfl⟩
    show rd.buf.take rd.r = lb.buf.take lb.r
    rw [hreads.buf, hreads.r, List.take_take, min_eq_left h.r_le]
  · rw [if_neg hjoin, if_neg (by rw [decide_eq_false hjoin]; decide), hreads.eol]
    by_cases heol : lb.eol = true
    · rw [if_pos heol, if_pos heol]
      have hfront : 0 < ((List.range lb.buf.length).map left).length := by
        rw [List.length_map, List.length_range]
        omega
      rw [@push_eq { lb.pass left with eol := false, i := 0, r := 0 } hfront c, C.ok_bind]
      refine ⟨_, some lb.buf, rfl, ⟨?_, (absurd · Bool.false_ne_true), rfl, rfl,
        hreads.escapeSequence, hreads.bufsize, (absurd · Bool.false_ne_true)⟩, congrArg some (line_eq hreads).symm⟩
      exact (take_set_succ hfront c).symm
    · rw [if_neg heol, if_neg heol]
      obtain ⟨lb', hpush, hreads'⟩ := push_reads h.toInBuffer hreads c
      exact ⟨lb', none, by rw [hpush, C.ok_bind], hreads', rfl⟩

/-- **The loop on its buffer is the one of `LocReader`.** -/
theorem read_reads (h : lb.Roomy) (hreads : BufferReads lb rd) (left : ℕ → UInt8) (c : UInt8) :
    ReadsNext (lb.read left c) (rd.read (lb.buf.drop lb.i) c) := by
  have hescape (b : Bool) : BufferReads { lb with escapeSequence := b } { rd with escapeSequence := b } :=
    ⟨hreads.buf, hreads.terminated, hreads.r, hreads.eol, rfl, hreads.bufsize, hreads.ended⟩
  rw [read, LocReader.read, hreads.escapeSequence]
  split
  · split
    · exact ⟨_, none, rfl, hescape false, rfl⟩
    · obtain ⟨lb', hend, hreads'⟩ := endLine_reads h.toInBuffer hreads
      exact ⟨lb', none, by rw [hend, C.ok_bind], hreads', rfl⟩
  split
  · split
    · exact ⟨_, none, rfl, hescape false, rfl⟩
    · by_cases heol : lb.eol = true
      · rw [if_pos heol, if_pos (hreads.eol.trans heol)]
        exact ⟨lb, none, rfl, hreads, rfl⟩
      · obtain ⟨lb', hpush, hreads'⟩ := push_reads h.toInBuffer hreads c
        rw [if_neg heol, if_neg (hreads.eol ▸ heol)]
        exact ⟨lb', none, by rw [hpush, C.ok_bind], hreads', rfl⟩
  split
  · obtain ⟨lb', hpush, hreads'⟩ := readEscaped_reads h hreads c
    refine ⟨{ lb' with escapeSequence := false }, none, by rw [hpush, C.ok_bind], ?_, rfl⟩
    exact ⟨hreads'.buf, hreads'.terminated, hreads'.r, hreads'.eol, rfl, hreads'.bufsize,
      hreads'.ended⟩
  split
  · exact ⟨_, none, rfl, hescape true, rfl⟩
  · exact readText_reads h hreads left c

/-- The buffer is made larger when it is in `LocReader`, if there is memory. -/
theorem grow_reads (h : lb.InBuffer) (hreads : BufferReads lb rd) {heap : HeapAnswer UInt8}
    (hheap : heap.allocated = true) :
    match lb.grow heap with
    | none => rd.grow = none
    | some lb' => ∃ rd', rd.grow = some rd' ∧ BufferReads lb' rd' := by
  have hlength : rd.buf.length = lb.i := by
    rw [hreads.buf, List.length_take_of_le (h.length_eq ▸ h.i_lt.le)]
  rw [grow, LocReader.grow, hreads.bufsize, hlength]
  by_cases hfull : lb.bufsize - 2 ≤ lb.i
  · rw [if_pos hfull, if_pos hfull]
    dsimp only
    by_cases hmax : 32768 < lb.bufsize * 2
    · rw [if_pos hmax, if_pos hmax]
    · have hgrants : heap.grants (lb.bufsize * 2) = true := by
        rw [HeapAnswer.grants, hheap, decide_eq_true (by omega)]
        rfl
      have hbuf : lb.buf.length ≤ lb.bufsize * 2 := by
        have := h.length_eq
        omega
      have hi : lb.i < lb.buf.length := h.length_eq ▸ h.i_lt
      rw [if_neg hmax, if_neg hmax, if_pos hgrants]
      refine ⟨_, rfl, ?_, ?_, hreads.r, hreads.eol, hreads.escapeSequence, rfl, hreads.ended⟩
      · show rd.buf = (reallocBlock heap lb.buf (lb.bufsize * 2)).take lb.i
        rw [reallocBlock_of_le heap hbuf, List.take_append_of_le_length hi.le, hreads.buf]
      · intro hterminated
        show (reallocBlock heap lb.buf (lb.bufsize * 2))[lb.i]? = some nul
        rw [reallocBlock_of_le heap hbuf, List.getElem?_append_left hi,
          hreads.terminated hterminated]
  · rw [if_neg hfull, if_neg hfull]
    exact ⟨rd, rfl, hreads⟩

/-- At the end of the file the last line is passed. -/
theorem eof_reads (h : lb.InBuffer) (hreads : BufferReads lb rd) :
    cstr (lb.buf.set lb.i nul) = cstr rd.buf := by
  have hi : lb.i < lb.buf.length := h.length_eq ▸ h.i_lt
  have hset : BufferReads { lb with buf := lb.buf.set lb.i nul } { rd with terminated := true } := by
    refine ⟨?_, fun _ => List.getElem?_set_self hi, hreads.r, hreads.eol, hreads.escapeSequence,
      hreads.bufsize, fun _ => .inr rfl⟩
    exact hreads.buf.trans (List.take_set_of_le le_rfl).symm
  exact (line_eq hset).symm

end LocBuffer

/-- The turns for a section of a file -/
def turnsOf (stop : ℕ) (left : ℕ → ℕ → UInt8) (heap : ℕ → HeapAnswer UInt8) :
    (pos : ℕ) → List UInt8 → List LocTurn
  | pos, [] => [⟨none, false, left pos, heap pos⟩]
  | pos, c :: s =>
      ⟨some c, decide (stop < pos + 1), left pos, heap pos⟩ :: turnsOf stop left heap (pos + 1) s

/-- What is behind a line matters from the position on only. -/
theorem readLoop_congr {behind behind' : ℕ → List UInt8} {stop : ℕ} :
    ∀ (s : List UInt8) (pos : ℕ) (rd : LocReader), (∀ p, pos ≤ p → behind p = behind' p) →
      readLoop behind stop pos rd s = readLoop behind' stop pos rd s
  | [], _, _, _ => rfl
  | c :: s, pos, rd, h => by
      rw [readLoop, readLoop, h pos le_rfl]
      have hrest (rd : LocReader) := @readLoop_congr behind behind' stop s (pos + 1) rd fun p hp =>
        h p (Nat.le_of_succ_le hp)
      simp only [hrest]

/-- **The lines that are passed are those of `LocReader`**, as long as there is memory. -/
theorem locRun_reads {stop : ℕ} {left : ℕ → ℕ → UInt8} {heap : ℕ → HeapAnswer UInt8}
    (hheap : ∀ pos, (heap pos).allocated = true) :
    ∀ (s : List UInt8) (pos : ℕ) {lb : LocBuffer} {rd : LocReader}, lb.Roomy → BufferReads lb rd →
      ∃ behind lines, locRun (turnsOf stop left heap pos s) lb = .ok (none, lines) ∧
        lines.map cstr = (readLoop behind stop pos rd s).1
  | [], pos, lb, rd, h, hreads => by
      have hi : lb.i < lb.buf.length := h.length_eq ▸ h.i_lt
      refine ⟨fun _ => [], [lb.buf.set lb.i nul], ?_, ?_⟩
      · rw [turnsOf, locRun, LocBuffer.turn]
        dsimp only
        rw [store, if_pos hi]
        rfl
      · rw [List.map_singleton, LocBuffer.eof_reads h.toInBuffer hreads]
        rfl
  | c :: s, pos, lb, rd, h, hreads => by
      obtain ⟨lb₁, passed, hread, hreads₁, hpassed⟩ := LocBuffer.read_reads h hreads (left pos) c
      obtain ⟨r, hr, hlater₁⟩ := LocBuffer.read_achieves h (left pos) c
      obtain rfl := Except.ok.inj (hread.symm.trans hr)
      have hlines : passed.toList.map cstr = (rd.read (lb.buf.drop lb.i) c).2.toList := by
        rw [← hpassed]
        cases passed <;> rfl
      rw [turnsOf, locRun, LocBuffer.turn]
      dsimp only
      rw [hread, C.ok_bind, C.ok_bind]
      by_cases hpast : stop < pos + 1
      · refine ⟨fun _ => lb.buf.drop lb.i, passed.toList, ?_, ?_⟩
        · rw [if_pos (decide_eq_true hpast)]
        · rw [hlines, readLoop]
          dsimp only
          rw [if_pos hpast]
      rw [if_neg (by rw [decide_eq_false hpast]; exact Bool.false_ne_true)]
      have hgrow := LocBuffer.grow_reads (hlater₁.inBuffer h le_rfl) hreads₁ (hheap pos)
      cases hnext : lb₁.grow (heap pos) with
      | none =>
          rw [hnext] at hgrow
          refine ⟨fun _ => lb.buf.drop lb.i, passed.toList, rfl, ?_⟩
          rw [hlines, readLoop]
          dsimp only
          rw [if_neg hpast, hgrow]
      | some lb₂ =>
          rw [hnext] at hgrow
          obtain ⟨rd₂, hrd₂, hreads₂⟩ := hgrow
          obtain ⟨behind, lines, hrun, hrest⟩ :=
            locRun_reads hheap s (pos + 1) (hlater₁.grow h hnext) hreads₂
          refine ⟨Function.update behind pos (lb.buf.drop lb.i), passed.toList ++ lines, ?_, ?_⟩
          · dsimp only
            rw [hrun]
            rfl
          · rw [List.map_append, hlines, hrest, readLoop, Function.update_self]
            dsimp only
            rw [if_neg hpast, hrd₂]
            dsimp only
            rw [readLoop_congr s (pos + 1) rd₂ fun p hp =>
              Function.update_of_ne (Nat.ne_of_gt hp) _ behind]

theorem LocBuffer.init_reads (heap : HeapAnswer UInt8) : BufferReads (init heap) .init :=
  ⟨rfl, nofun, rfl, rfl, rfl, rfl, nofun⟩

theorem locRun_readSection {left : ℕ → ℕ → UInt8} {heap : ℕ → HeapAnswer UInt8}
    (hheap : ∀ pos, (heap pos).allocated = true) (heap₀ : HeapAnswer UInt8) (content : List UInt8)
    (start stop : ℕ) :
    ∃ behind lines, locRun (turnsOf stop left heap start (content.drop start)) (.init heap₀) =
        .ok (none, lines) ∧ lines.map cstr = (readSection behind content start stop).1 :=
  locRun_reads hheap _ start (LocBuffer.init_roomy heap₀) (LocBuffer.init_reads heap₀)

end Nawam
