import Mathlib.Data.Nat.Bitwise
import Nawam.Base.Achieves
import Nawam.Base.HeapBlock
import Nawam.Base.Spelling

/-!
# UTF-8 and UTF-16LE

A name in a WIM image is UTF-16LE, as Windows has it: any sequence of 16-bit units, also
one with a surrogate that has no other half. Such a name is converted to WTF-8, in which
a lone surrogate is spelled like any other codepoint.

`convert_string` goes over the string twice. The first pass checks it and adds up the
size of the output, the second one trusts it: it neither checks what it reads nor knows
where the output ends. `convertString_spells` says that both passes see the same
codepoints, for any pair of a decoder and the code that it reads.
-/

namespace Nawam.Wim

def invalidCodepoint : ℕ := 0xFFFFFFFF

def isSurrogate (c : ℕ) : Bool := 0xD800 ≤ c && c < 0xE000

def isHighSurrogate (c : ℕ) : Bool := 0xD800 ≤ c && c < 0xDC00

def isLowSurrogate (c : ℕ) : Bool := 0xDC00 ≤ c && c < 0xE000

def isUtf8Tail (c : UInt8) : Bool := c &&& 0xC0 == 0x80

/-- `IS_UTF8_TAIL(in[1]) && IS_UTF8_TAIL(in[2]) && …`, for `n` bytes from `p` on -/
def utf8Tails (s : List UInt8) : ℕ → ℕ → C Bool
  | 0, _ => .ok true
  | n + 1, p => do
      let c ← load s p
      if isUtf8Tail c then utf8Tails s n (p + 1) else .ok false

/-- What `VALIDATE` lets pass: the condition on the first byte and on what remains, and
behind that the `n` bytes from `p` on -/
def utf8Validate (validate front : Bool) (s : List UInt8) (n p : ℕ) : C Bool :=
  if validate then if front then utf8Tails s n p else .ok false else .ok true

/-- `decode_codepoint_fn`: how many bytes were consumed, and the codepoint. The string is
`s` from `p` on. -/
abbrev DecodeCodepointFn : Type := List UInt8 → ℕ → ℕ → Bool → C (ℕ × ℕ)

/-- `encode_codepoint_fn`: the bytes that are put to `out` -/
abbrev EncodeCodepointFn : Type := ℕ → List UInt8

def utf8DecodeCodepoint : DecodeCodepointFn := fun s p remaining validate => do
  let in0 ← load s p
  if in0 < 0x80 then return (1, in0.toNat)
  else if in0 < 0xE0 then
    if ← utf8Validate validate (0xC2 ≤ in0 && 2 ≤ remaining) s 1 (p + 1) then
      let in1 ← load s (p + 1)
      return (2, (in0.toNat &&& 0x1F) <<< 6 ||| (in1.toNat &&& 0x3F))
    else return (1, invalidCodepoint)
  else if in0 < 0xF0 then
    if ← utf8Validate validate (3 ≤ remaining) s 2 (p + 1) then
      let in1 ← load s (p + 1)
      let in2 ← load s (p + 2)
      let c := (in0.toNat &&& 0x0F) <<< 12 ||| (in1.toNat &&& 0x3F) <<< 6 ||| (in2.toNat &&& 0x3F)
      if validate && !decide (0x800 ≤ c) then return (1, invalidCodepoint) else return (3, c)
    else return (1, invalidCodepoint)
  else
    if ← utf8Validate validate (in0 < 0xF8 && 4 ≤ remaining) s 3 (p + 1) then
      let in1 ← load s (p + 1)
      let in2 ← load s (p + 2)
      let in3 ← load s (p + 3)
      let c := (in0.toNat &&& 0x07) <<< 18 ||| (in1.toNat &&& 0x3F) <<< 12 |||
        (in2.toNat &&& 0x3F) <<< 6 ||| (in3.toNat &&& 0x3F)
      if validate && !(decide (0x10000 ≤ c) && decide (c ≤ 0x10FFFF)) then
        return (1, invalidCodepoint)
      else return (4, c)
    else return (1, invalidCodepoint)

def utf8EncodeCodepoint : EncodeCodepointFn := fun c =>
  if c < 0x80 then [.ofNat c]
  else if c < 0x800 then [.ofNat (0xC0 ||| c >>> 6), .ofNat (0x80 ||| (c &&& 0x3F))]
  else if c < 0x10000 then
    [.ofNat (0xE0 ||| c >>> 12), .ofNat (0x80 ||| ((c >>> 6) &&& 0x3F)),
      .ofNat (0x80 ||| (c &&& 0x3F))]
  else
    [.ofNat (0xF0 ||| c >>> 18), .ofNat (0x80 ||| ((c >>> 12) &&& 0x3F)),
      .ofNat (0x80 ||| ((c >>> 6) &&& 0x3F)), .ofNat (0x80 ||| (c &&& 0x3F))]

/-- `utf16le_decode_codepoint`, with `ALLOW_UNPAIRED_SURROGATES` -/
def utf16leDecodeCodepoint : DecodeCodepointFn := fun s p remaining validate =>
  if validate && !decide (2 ≤ remaining) then .ok (min remaining 2, invalidCodepoint)
  else do
    let h ← loadLE s p 2
    if isSurrogate h then
      if !isHighSurrogate h || decide (remaining < 4) then return (2, h)
      else
        let l ← loadLE s (p + 2) 2
        if !isLowSurrogate l then return (2, h)
        else return (4, 0x10000 + (h - 0xD800) <<< 10 + (l - 0xDC00))
    else return (2, h)

def utf16leEncodeCodepoint : EncodeCodepointFn := fun c =>
  if c < 0x10000 then leBytes 2 c
  else
    leBytes 2 (0xD800 + (c - 0x10000) >>> 10) ++
      leBytes 2 (0xDC00 + ((c - 0x10000) &&& 0x3FF))

inductive WimlibError where
  | invalidUtf16String
  | invalidUtf8String
  | nomem
deriving DecidableEq, Repr

section ConvertString

variable (decodeCodepoint : DecodeCodepointFn) (encodeCodepoint : EncodeCodepointFn)

/-- The first `for` of `convert_string`: `out_nbytes`, if the string is valid -/
def validateTurns (s : List UInt8) : ℕ → ℕ → ℕ → C (Option ℕ)
  | 0, _, _ => .error .outOfFuel
  | turns + 1, i, outNbytes =>
      if i < s.length then do
        let (n, c) ← decodeCodepoint s i (s.length - i) true
        if c = invalidCodepoint then return none
        else
          let _ ← copyInto (List.replicate 8 0) 0 (encodeCodepoint c)
          validateTurns s turns (i + n) (outNbytes + (encodeCodepoint c).length)
      else .ok (some outNbytes)

/-- The second `for`: what is in the output then, and `p_out` -/
def convertTurns (s : List UInt8) : ℕ → List UInt8 → ℕ → ℕ → C (List UInt8 × ℕ)
  | 0, _, _, _ => .error .outOfFuel
  | turns + 1, out, i, pOut =>
      if i < s.length then do
        let (n, c) ← decodeCodepoint s i (s.length - i) false
        let out ← copyInto out pOut (encodeCodepoint c)
        convertTurns s turns out (i + n) (pOut + (encodeCodepoint c).length)
      else .ok (out, pOut)

/-- `convert_string`: the output string, and its size without the null terminator -/
def convertString (heap : HeapAnswer UInt8) (ilseqErr : WimlibError) (s : List UInt8) :
    C (Except WimlibError (List UInt8 × ℕ)) := do
  match ← validateTurns decodeCodepoint encodeCodepoint s (s.length + 1) 0 0 with
  | none => return .error ilseqErr
  | some outNbytes =>
      let size := outNbytes + (encodeCodepoint 0).length
      if heap.grants size then
        let (out, pOut) ← convertTurns decodeCodepoint encodeCodepoint s (s.length + 1)
          ((List.range size).map heap.garbage) 0 0
        let out ← copyInto out pOut (encodeCodepoint 0)
        return .ok (out, outNbytes)
      else return .error .nomem

end ConvertString

def utf8ToUtf16le (heap : HeapAnswer UInt8) (s : List UInt8) :
    C (Except WimlibError (List UInt8 × ℕ)) :=
  convertString utf8DecodeCodepoint utf16leEncodeCodepoint heap .invalidUtf8String s

def utf16leToUtf8 (heap : HeapAnswer UInt8) (s : List UInt8) :
    C (Except WimlibError (List UInt8 × ℕ)) :=
  convertString utf16leDecodeCodepoint utf8EncodeCodepoint heap .invalidUtf16String s

/-! ## The two passes -/

/-- `decode` reads `code` off the front of a string: what is spelled there is decoded
whether it is checked or not, and with the check anything else is found invalid. -/
structure Decodes (decode : DecodeCodepointFn) (code : Code UInt8 ℕ) : Prop where
  word_ne_nil : ∀ c : ℕ, code.word c ≠ []
  valid : ∀ {c : ℕ}, code.Valid c → c ≠ invalidCodepoint
  reads : ∀ {s rest : List UInt8} {p c : ℕ} (validate : Bool),
    code.Begins (s.drop p) c rest →
      decode s p (s.length - p) validate = .ok ((code.word c).length, c)
  decides : ∀ {s : List UInt8} {p : ℕ}, p < s.length →
    ∃ n c : ℕ, decode s p (s.length - p) true = .ok (n, c) ∧
      (c = invalidCodepoint ∨ ∃ rest, code.Begins (s.drop p) c rest)

namespace Decodes

variable {decode : DecodeCodepointFn} {code : Code UInt8 ℕ} {encode : EncodeCodepointFn}

theorem drop_of_begins {s rest : List UInt8} {i c : ℕ} (h : code.Begins (s.drop i) c rest) :
    s.drop (i + (code.word c).length) = rest := by
  rw [← List.drop_drop, h.1, List.drop_left]

theorem lt_of_begins (h : Decodes decode code) {s rest : List UInt8} {i c : ℕ}
    (hbegins : code.Begins (s.drop i) c rest) : i < s.length := by
  by_contra hle
  have hnil := hbegins.1
  rw [List.drop_eq_nil_of_le (by omega)] at hnil
  exact h.word_ne_nil c (List.append_eq_nil_iff.mp hnil.symm).1

/-- The first pass adds up what the second one will write. -/
theorem validateTurns_spells (h : Decodes decode code) (hencode : ∀ c, (encode c).length ≤ 8)
    {s : List UInt8} {cs : List ℕ} {turns i : ℕ} (hspells : code.Spells (s.drop i) cs)
    (hturns : s.length - i < turns) (outNbytes : ℕ) :
    validateTurns decode encode s turns i outNbytes =
      .ok (some (outNbytes + (cs.flatMap encode).length)) := by
  induction cs generalizing turns i outNbytes with
  | nil =>
      have hend := List.drop_eq_nil_iff.mp (Code.Spells.nil_iff.mp hspells)
      obtain ⟨turns, rfl⟩ := Nat.exists_eq_add_of_lt (Nat.zero_lt_of_lt hturns)
      rw [Nat.zero_add, validateTurns, if_neg (by omega)]
      rfl
  | cons c cs ih =>
      obtain ⟨rest, hbegins, hrest⟩ := Code.Spells.cons_iff.mp hspells
      have hlt := h.lt_of_begins hbegins
      have hpos := List.length_pos_iff.mpr (h.word_ne_nil c)
      have hroom : 0 + (encode c).length ≤ (List.replicate 8 (0 : UInt8)).length := by
        rw [List.length_replicate, Nat.zero_add]
        exact hencode c
      rw [← drop_of_begins hbegins] at hrest
      obtain ⟨turns, rfl⟩ := Nat.exists_eq_add_of_lt (Nat.zero_lt_of_lt hturns)
      rw [Nat.zero_add] at hturns ⊢
      rw [validateTurns, if_pos hlt, h.reads true hbegins, C.ok_bind]
      dsimp only
      rw [if_neg (h.valid hbegins.2.1), copyInto_of_le hroom, C.ok_bind,
        ih hrest (by omega), List.flatMap_cons, List.length_append, Nat.add_assoc]

/-- The first pass finds out that there is no reading. -/
theorem validateTurns_refuses (h : Decodes decode code) (hencode : ∀ c, (encode c).length ≤ 8)
    {s : List UInt8} {turns i : ℕ} (hspells : ∀ cs, ¬ code.Spells (s.drop i) cs)
    (hturns : s.length - i < turns) (outNbytes : ℕ) :
    validateTurns decode encode s turns i outNbytes = .ok none := by
  induction turns generalizing i outNbytes with
  | zero => omega
  | succ turns ih =>
      have hlt : i < s.length := by
        by_contra hle
        exact hspells [] (Code.Spells.nil_iff.mpr (List.drop_eq_nil_of_le (by omega)))
      obtain ⟨n, c, hdecode, hc⟩ := h.decides hlt
      rw [validateTurns, if_pos hlt, hdecode, C.ok_bind]
      dsimp only
      rcases hc with rfl | ⟨rest, hbegins⟩
      · rw [if_pos rfl]
        rfl
      · rw [h.reads true hbegins] at hdecode
        obtain ⟨rfl, -⟩ := Prod.mk.inj (Except.ok.inj hdecode)
        have hpos := List.length_pos_iff.mpr (h.word_ne_nil c)
        have hroom : 0 + (encode c).length ≤ (List.replicate 8 (0 : UInt8)).length := by
          rw [List.length_replicate, Nat.zero_add]
          exact hencode c
        rw [if_neg (h.valid hbegins.2.1), copyInto_of_le hroom, C.ok_bind, ih ?_ (by omega)]
        intro cs hcs
        rw [drop_of_begins hbegins] at hcs
        exact hspells (c :: cs) (.cons hbegins hcs)

/-- The second pass writes behind what is done, and no further than it has to. -/
theorem convertTurns_spells (h : Decodes decode code) {s : List UInt8} {cs : List ℕ}
    {turns i : ℕ} (done : List UInt8) {room : List UInt8} (hspells : code.Spells (s.drop i) cs)
    (hturns : s.length - i < turns) (hroom : (cs.flatMap encode).length ≤ room.length) :
    convertTurns decode encode s turns (done ++ room) i done.length =
      .ok (done ++ cs.flatMap encode ++ room.drop (cs.flatMap encode).length,
        (done ++ cs.flatMap encode).length) := by
  induction cs generalizing turns i done room with
  | nil =>
      have hend := List.drop_eq_nil_iff.mp (Code.Spells.nil_iff.mp hspells)
      obtain ⟨turns, rfl⟩ := Nat.exists_eq_add_of_lt (Nat.zero_lt_of_lt hturns)
      rw [Nat.zero_add, convertTurns, if_neg (by omega), List.flatMap_nil, List.append_nil]
      rfl
  | cons c cs ih =>
      obtain ⟨rest, hbegins, hrest⟩ := Code.Spells.cons_iff.mp hspells
      have hlt := h.lt_of_begins hbegins
      have hpos := List.length_pos_iff.mpr (h.word_ne_nil c)
      rw [← drop_of_begins hbegins] at hrest
      rw [List.flatMap_cons, List.length_append] at hroom
      have hfits : done.length + (encode c).length ≤ (done ++ room).length := by
        rw [List.length_append]
        omega
      obtain ⟨turns, rfl⟩ := Nat.exists_eq_add_of_lt (Nat.zero_lt_of_lt hturns)
      rw [Nat.zero_add] at hturns ⊢
      rw [convertTurns, if_pos hlt, h.reads false hbegins, C.ok_bind]
      dsimp only
      rw [copyInto_of_le hfits, C.ok_bind, List.take_left, ← List.append_assoc,
        List.drop_length_add_append, ← List.length_append, ih _ hrest (by omega) (by
          rw [List.length_drop]
          omega), List.flatMap_cons, List.drop_drop]
      simp only [List.append_assoc, List.length_append]

end Decodes

/-- What a conversion hands out: the bytes with the terminator behind them and their
number, where there is memory for that -/
def handedOut (heap : HeapAnswer UInt8) (bytes terminator : List UInt8) :
    C (Except WimlibError (List UInt8 × ℕ)) :=
  if heap.grants (bytes.length + terminator.length) then
    .ok (.ok (bytes ++ terminator, bytes.length))
  else .ok (.error .nomem)

section ConvertString

variable {decode : DecodeCodepointFn} {code : Code UInt8 ℕ} {encode : EncodeCodepointFn}
  {heap : HeapAnswer UInt8} {ilseqErr : WimlibError} {s : List UInt8}

/-- The codepoints of a string are encoded one behind the other, and these bytes fill the
output. -/
theorem convertString_spells (h : Decodes decode code) (hencode : ∀ c, (encode c).length ≤ 8)
    {cs : List ℕ} (hspells : code.Spells s cs) :
    convertString decode encode heap ilseqErr s =
      handedOut heap (cs.flatMap encode) (encode 0) := by
  have hvalidate : validateTurns decode encode s (s.length + 1) 0 0 =
      .ok (some (0 + (cs.flatMap encode).length)) :=
    h.validateTurns_spells (s := s) (i := 0) hencode hspells (by omega) 0
  rw [Nat.zero_add] at hvalidate
  rw [convertString, hvalidate, C.ok_bind, handedOut]
  dsimp only
  split
  case isFalse => rfl
  case isTrue =>
      generalize hroom : (List.range ((cs.flatMap encode).length + (encode 0).length)).map
        heap.garbage = room
      have hlength : room.length = (cs.flatMap encode).length + (encode 0).length := by
        rw [← hroom, List.length_map, List.length_range]
      have hconvert : convertTurns decode encode s (s.length + 1) room 0 0 =
          .ok (cs.flatMap encode ++ room.drop (cs.flatMap encode).length,
            (cs.flatMap encode).length) :=
        h.convertTurns_spells (i := 0) [] hspells (by omega) (by omega)
      have hend : (cs.flatMap encode ++ room.drop (cs.flatMap encode).length).length =
          (cs.flatMap encode).length + (encode 0).length := by
        rw [List.length_append, List.length_drop]
        omega
      rw [hconvert, C.ok_bind]
      dsimp only
      rw [copyInto_of_le (Nat.le_of_eq hend.symm), C.ok_bind, List.take_left, ← hend,
        List.drop_length, List.append_nil]
      rfl

/-- A string that is no text of the code is refused before anything is allocated. -/
theorem convertString_refuses (h : Decodes decode code) (hencode : ∀ c, (encode c).length ≤ 8)
    (hspells : ∀ cs, ¬ code.Spells s cs) :
    convertString decode encode heap ilseqErr s = .ok (.error ilseqErr) := by
  rw [convertString, h.validateTurns_refuses hencode (i := 0) hspells (by omega) 0]
  rfl

end ConvertString

end Nawam.Wim
