import Nawam.Base.Achieves
import Nawam.Base.EarlyReturn
import Nawam.Bled.Reader
import Nawam.Safety.Guards

/-!
# The walk over the end header of a 7z archive

`get_uncompress_size_7zip` reads the end header into a buffer and walks over it with a
cursor, up to the size of the one folder it takes. The counts of its loops and the lengths
that it skips are 64-bit numbers from the file.

Every read is inside of the buffer. But `SZ_NEED` adds the length to the cursor before it
compares, and a sum from 2^64 on passes: the cursor goes back, and a short header can keep
the loop over the coders going for as many turns as it says. Where no sum wraps, each turn
moves the cursor on.
-/

namespace Nawam

/-! ## Source -/

/-- The loop of `sz_read_num`, `k` turns before its end -/
def szReadNumLoop (buf : List UInt8) (bufLen first : ℕ) : (k mask value pos : ℕ) → C (ℕ × ℕ)
  | 0, _, value, pos => .ok (value, pos)
  | k + 1, mask, value, pos =>
      let i := 7 - k
      if first &&& mask = 0 then
        let highPart := first &&& (mask - 1)
        .ok ((value + highPart <<< (i * 8)) % 2 ^ 64, pos)
      else if bufLen ≤ pos then .ok (uint64Max, pos)
      else do
        let b ← load buf pos
        szReadNumLoop buf bufLen first k (mask >>> 1) (value ||| b.toNat <<< (i * 8)) (pos + 1)

/-- `sz_read_num`: the value, or `UINT64_MAX` on error, and the position behind it -/
def szReadNum (buf : List UInt8) (bufLen pos : ℕ) : C (ℕ × ℕ) :=
  if bufLen ≤ pos then .ok (uint64Max, pos)
  else do
    let first ← load buf pos
    szReadNumLoop buf bufLen first.toNat 8 0x80 0 (pos + 1)

/-- `pos`, and what was done with it so far: from where to where it was moved, the lengths
that it was to skip and where it stood before, the turns of loops that were begun, and
where those began and ended that came to their end. Nothing of that is read. -/
structure SzState where
  pos : ℕ
  moves : List (ℕ × ℕ)
  skips : List (ℕ × ℕ)
  begun : ℕ
  turns : List (ℕ × ℕ)
deriving DecidableEq

namespace SzState

def start : SzState := ⟨0, [], [], 0, []⟩

def moveTo (s : SzState) (pos : ℕ) : SzState :=
  { s with pos, moves := (s.pos, pos) :: s.moves }

end SzState

abbrev Sz (α : Type) : Type := Routine ℤ SzState α

section

variable (eh : List UInt8)

/-- `SZ_NEED(n)` -/
def szNeed (n : ℕ) : Sz Unit := fun s =>
  if eh.length < (s.pos + n) % 2 ^ 64 then .stop decompSizeError s else .next () s

/-- `eh[pos]` -/
def szPeek : Sz UInt8 := fun s =>
  match load eh s.pos with
  | .error e => .fault e
  | .ok b => .next b s

/-- `pos += n` -/
def szAdvance (n : ℕ) : Sz Unit := fun s => .next () (s.moveTo ((s.pos + n) % 2 ^ 64))

def szByte : Sz UInt8 := do
  szNeed eh 1
  let b ← szPeek eh
  szAdvance 1
  return b

def szNum : Sz ℕ := fun s =>
  match szReadNum eh eh.length s.pos with
  | .error e => .fault e
  | .ok (v, pos) =>
      if v = uint64Max then .stop decompSizeError (s.moveTo pos) else .next v (s.moveTo pos)

def szNoteSkip (n : ℕ) : Sz Unit := fun s =>
  .next () { s with skips := (s.pos, n) :: s.skips }

/-- `SZ_SKIP(n)` -/
def szSkip (n : ℕ) : Sz Unit := do
  szNoteSkip n
  szNeed eh n
  szAdvance n

/-- `SZ_EXPECT(tag)` -/
def szExpect (tag : UInt8) : Sz Unit := do
  let b ← szByte eh
  if b = tag then return () else .stop decompSizeError

/-- A turn begins: the cursor -/
def szBegin : Sz ℕ := fun s => .next s.pos { s with begun := s.begun + 1 }

/-- The turn that began at `pos` ends. -/
def szEnd (pos : ℕ) : Sz Unit := fun s =>
  .next () { s with turns := (pos, s.pos) :: s.turns }

def szTurn (body : Sz Unit) : Sz Unit := do
  let pos ← szBegin
  body
  szEnd pos

/-- `for (i = 0; i < n; i++)` -/
def szLoop (body : Sz Unit) : ℕ → Sz Unit
  | 0 => return ()
  | n + 1 => do
      szTurn body
      szLoop body n

/-- `{ uint64_t dummy; SZ_NUM(dummy); }` -/
def szDummy : Sz Unit := do
  let _ ← szNum eh
  return ()

def szCoder : Sz Unit := do
  let flags ← szByte eh
  let idSize := flags.toNat &&& 0x0F
  let isComplex := (flags.toNat >>> 4) &&& 1
  let hasAttrs := (flags.toNat >>> 5) &&& 1
  szSkip eh idSize
  .when (isComplex ≠ 0) do
    szDummy eh -- NumInStreams
    szDummy eh -- NumOutStreams
  .when (hasAttrs ≠ 0) do
    let attrSize ← szNum eh
    szSkip eh attrSize

/-- From `kHeader` to the end of `kPackInfo`: `num_pack` -/
def szPackInfo : Sz ℕ := do
  szExpect eh 0x01
  szNeed eh 1
  let b ← szPeek eh
  if b = 0x17 then .stop decompSizeError -- kEncodedHeader
  else do
    szExpect eh 0x04
    szExpect eh 0x06
    szDummy eh -- PackPos
    let numPack ← szNum eh
    szExpect eh 0x09
    szLoop (szDummy eh) numPack
    szExpect eh 0x00
    return numPack

/-- From `kUnPackInfo` to the last of the coders: `num_coders` -/
def szCoders : Sz ℕ := do
  szExpect eh 0x07
  szExpect eh 0x0B
  let numFolders ← szNum eh
  if numFolders ≠ 1 then .stop decompSizeError
  else do
    let external ← szByte eh
    if external ≠ 0 then .stop decompSizeError
    else do
      let numCoders ← szNum eh
      if numCoders = 0 then .stop decompSizeError
      else do
        szLoop (szCoder eh) numCoders
        return numCoders

/-- The bind pairs and the indices of the packed streams -/
def szIndices (numPack numCoders : ℕ) : Sz Unit :=
  .when (1 < numCoders) do
    szLoop (do szDummy eh; szDummy eh) (numCoders - 1)
    .when (numCoders - 1 < numPack) (szLoop (szDummy eh) (numPack - (numCoders - 1)))

def szUnpackSize : Sz ℤ := do
  szNeed eh 1
  let firstTag ← szPeek eh
  szAdvance 1
  if firstTag ≠ 0x0C then .stop decompSizeError
  else do
    let unpackSize ← szNum eh
    return asInt64 unpackSize

def szWalk : Sz ℤ := do
  let numPack ← szPackInfo eh
  let numCoders ← szCoders eh
  szIndices eh numPack numCoders
  szUnpackSize eh

end

def szSig : List UInt8 := [0x37, 0x7A, 0xBC, 0xAF, 0x27, 0x1C]

/-- The sanity cap on the size of the end header -/
abbrev szHeaderMax : ℕ := 64 * 1024 * 1024

/-- Read & verify Signature Header, and Read End Header -/
def szReadHeader (file : List UInt8) : Option (List UInt8) := do
  let pos ← lseek 0 0
  let (sigHdr, _) ← readExact file 32 pos
  if Extent.slice sigHdr (0, 6) ≠ szSig then none
  else
    let nhOffset := getLe 8 sigHdr 12
    let nhSize := getLe 8 sigHdr 20
    if nhSize = 0 ∨ szHeaderMax < nhSize then none
    else do
      let pos ← lseek 0 (asInt64 ((32 + nhOffset) % 2 ^ 64))
      let (eh, _) ← readExact file nhSize pos
      some eh

def getUncompressSize7zip (file : List UInt8) : C ℤ :=
  match szReadHeader file with
  | none => .ok decompSizeError
  | some eh =>
      match szWalk eh .start with
      | .fault e => .error e
      | .stop r _ => .ok r
      | .next r _ => .ok r

structure EndHeader where
  bytes : List UInt8
  length_pos : 0 < bytes.length
  length_le : bytes.length ≤ szHeaderMax

/-! ## Numbers -/

theorem uint64Max_lt : uint64Max < 2 ^ 64 := by decide

theorem or_shiftLeft_lt {value shift b : ℕ} (hvalue : value < 2 ^ shift) (hb : b < 256) :
    value ||| b <<< shift < 2 ^ (shift + 8) := by
  apply Nat.or_lt_two_pow
  · exact lt_of_lt_of_le hvalue (Nat.pow_le_pow_right (by decide) (by omega))
  · rw [Nat.shiftLeft_eq, Nat.pow_add, Nat.mul_comm]
    exact Nat.mul_lt_mul_of_pos_left hb (Nat.two_pow_pos shift)

/-- The number is read inside of the buffer and has 64 bits. -/
theorem szReadNumLoop_achieves {buf : List UInt8} {first : ℕ} : ∀ {k mask value pos : ℕ},
    k ≤ 8 → value < 2 ^ ((8 - k) * 8) → pos ≤ buf.length →
    Achieves (szReadNumLoop buf buf.length first k mask value pos) fun r =>
      pos ≤ r.2 ∧ r.2 ≤ buf.length ∧ r.1 < 2 ^ 64 := by
  intro k
  induction k with
  | zero =>
      intro mask value pos _ hvalue hpos
      exact .ok ⟨le_rfl, hpos, hvalue⟩
  | succ k ih =>
      intro mask value pos hk hvalue hpos
      have hshift : (8 - (k + 1)) * 8 = (7 - k) * 8 := by omega
      have hnext : (8 - k) * 8 = (7 - k) * 8 + 8 := by omega
      rw [hshift] at hvalue
      rw [szReadNumLoop]
      refine .ite (fun _ => .ok ⟨le_rfl, hpos, Nat.mod_lt _ (by decide)⟩) fun _ => ?_
      refine .ite (fun _ => .ok ⟨le_rfl, hpos, uint64Max_lt⟩) fun hlt => ?_
      refine (Achieves.load (Nat.lt_of_not_le hlt)).bind fun b _ => ?_
      have hvalue' : value ||| b.toNat <<< ((7 - k) * 8) < 2 ^ ((8 - k) * 8) := by
        rw [hnext]
        exact or_shiftLeft_lt hvalue b.toNat_lt
      refine (ih (by omega) hvalue' (by omega)).mono fun r hr => ?_
      exact ⟨by omega, hr.2⟩

theorem szReadNum_achieves {buf : List UInt8} {pos : ℕ} (h : pos ≤ buf.length) :
    Achieves (szReadNum buf buf.length pos) fun r =>
      pos ≤ r.2 ∧ r.2 ≤ buf.length ∧ r.1 < 2 ^ 64 ∧ (r.1 ≠ uint64Max → pos < r.2) := by
  rw [szReadNum]
  refine .ite (fun _ => .ok ⟨le_rfl, h, uint64Max_lt, fun hne => absurd rfl hne⟩) fun hlt => ?_
  refine (Achieves.load (Nat.lt_of_not_le hlt)).bind fun first _ => ?_
  refine (szReadNumLoop_achieves le_rfl Nat.one_pos (by omega)).mono fun r hr => ?_
  exact ⟨by omega, hr.2.1, hr.2.2, fun _ => by omega⟩

/-! ## The way of the cursor -/

namespace SzState

/-- No length that is to be skipped takes the cursor past 2^64 and back into the header. -/
def SkipsForward (len : ℕ) (s : SzState) : Prop :=
  ∀ k ∈ s.skips, ¬(2 ^ 64 ≤ k.1 + k.2 ∧ (k.1 + k.2) % 2 ^ 64 ≤ len)

instance (len : ℕ) (s : SzState) : Decidable (s.SkipsForward len) := List.decidableBAll _ s.skips

/-- The cursor never went back and never past the end, each turn that came to its end moved
it on, and there were no more turns than bytes. -/
structure Forward (len : ℕ) (s : SzState) : Prop where
  moves : ∀ m ∈ s.moves, m.1 ≤ m.2 ∧ m.2 ≤ len
  turns : ∀ t ∈ s.turns, t.1 < t.2
  begun : s.begun ≤ len

/-- What the walk keeps: the cursor is in the header; it went forward where the lengths to
skip let it, and is by now `k` bytes ahead of the turns and at `p` or behind; and where one
of them did not, it was taken back. -/
structure Inv (len k p : ℕ) (s : SzState) : Prop where
  pos_le : s.pos ≤ len
  forward : s.SkipsForward len → (∀ m ∈ s.moves, m.1 ≤ m.2 ∧ m.2 ≤ len) ∧
    (∀ t ∈ s.turns, t.1 < t.2) ∧ s.begun + k ≤ s.pos ∧ p ≤ s.pos
  back : ¬s.SkipsForward len → ∃ m ∈ s.moves, m.2 < m.1

variable {len k p k' p' : ℕ} {s : SzState}

theorem Inv.weaken (h : s.Inv len k p) (hk : k' ≤ k) (hp : p' ≤ p) : s.Inv len k' p' where
  pos_le := h.pos_le
  forward hskips := by
    obtain ⟨hmoves, hturns, hbegun, hpos⟩ := h.forward hskips
    exact ⟨hmoves, hturns, by omega, by omega⟩
  back := h.back

/-- The cursor is moved on by `d` bytes at least. -/
theorem Inv.moveTo {pos d : ℕ} (h : s.Inv len k p) (hpos : s.pos + d ≤ pos) (hlen : pos ≤ len) :
    (s.moveTo pos).Inv len (k + d) (p + d) where
  pos_le := hlen
  forward hskips := by
    obtain ⟨hmoves, hturns, hbegun, hp⟩ := h.forward hskips
    have hmove : s.pos ≤ pos ∧ pos ≤ len := ⟨by omega, hlen⟩
    have hbegun' : s.begun + (k + d) ≤ pos := by omega
    exact ⟨List.forall_mem_cons.mpr ⟨hmove, hmoves⟩, hturns, hbegun', by
      show p + d ≤ pos
      omega⟩
  back hskips := by
    obtain ⟨m, hm, hback⟩ := h.back hskips
    exact ⟨m, List.mem_cons_of_mem _ hm, hback⟩

/-- A length is skipped that does not wrap the sum, or not into the header. -/
theorem Inv.skip {n : ℕ} (h : s.Inv len k p)
    (hn : ¬(2 ^ 64 ≤ s.pos + n ∧ (s.pos + n) % 2 ^ 64 ≤ len)) :
    ({ s with skips := (s.pos, n) :: s.skips } : SzState).Inv len k p := by
  refine ⟨h.pos_le, fun hskips => ?_, fun hskips => ?_⟩
  · exact h.forward (List.forall_mem_cons.mp hskips).2
  · exact h.back fun hall => hskips (List.forall_mem_cons.mpr ⟨hn, hall⟩)

/-- The walk went forward where the lengths that were skipped let it. -/
theorem Inv.forward_iff (h : s.Inv len 0 0) : s.Forward len ↔ s.SkipsForward len := by
  constructor
  · intro hforward
    by_contra hskips
    obtain ⟨m, hm, hback⟩ := h.back hskips
    exact absurd (hforward.moves m hm).1 (Nat.not_le_of_lt hback)
  · intro hskips
    obtain ⟨hmoves, hturns, hbegun, -⟩ := h.forward hskips
    have hpos := h.pos_le
    exact ⟨hmoves, hturns, by omega⟩

end SzState

/-! ## What the walk keeps -/

section

open Routine SzState

variable {eh : List UInt8} {k p : ℕ}

theorem szNum_meets : Meets (Inv eh.length k p) (szNum eh)
    (fun v s => v < 2 ^ 64 ∧ s.Inv eh.length (k + 1) (p + 1)) (Inv eh.length 0 0) := by
  intro s hs
  obtain ⟨⟨v, pos⟩, hread, hge, hle, hlt, hmoved⟩ := szReadNum_achieves hs.pos_le
  rw [szNum, hread]
  by_cases hv : v = uint64Max
  · have hinv := hs.moveTo (d := 0) hge hle
    simp only [if_pos hv]
    exact hinv.weaken (Nat.zero_le _) (Nat.zero_le _)
  · simp only [if_neg hv]
    exact ⟨hlt, hs.moveTo (hmoved hv) hle⟩

theorem szDummy_meets : Meets (Inv eh.length k p) (szDummy eh)
    (fun _ => Inv eh.length (k + 1) (p + 1)) (Inv eh.length 0 0) :=
  szNum_meets.bind fun _ => .pure fun _ hs => hs.2

theorem szDummy_keeps : Meets (Inv eh.length k p) (szDummy eh)
    (fun _ => Inv eh.length k p) (Inv eh.length 0 0) :=
  szDummy_meets.mono (fun _ hs => hs) fun _ _ hs => hs.weaken (Nat.le_succ k) (Nat.le_succ p)

theorem szNeed_of_lt {n : ℕ} {s : SzState} (h : eh.length < (s.pos + n) % 2 ^ 64) :
    szNeed eh n s = .stop decompSizeError s := if_pos h

theorem szNeed_of_le {n : ℕ} {s : SzState} (h : (s.pos + n) % 2 ^ 64 ≤ eh.length) :
    szNeed eh n s = .next () s := if_neg (Nat.not_lt.mpr h)

/-- There is a byte: the sum with a position in memory does not wrap. -/
theorem szNeed_meets (hmax : eh.length ≤ szHeaderMax) : Meets (Inv eh.length k p) (szNeed eh 1)
    (fun _ s => s.pos < eh.length ∧ s.Inv eh.length k p) (Inv eh.length 0 0) := by
  intro s hs
  have hpos := hs.pos_le
  rw [szHeaderMax] at hmax
  have hsum : (s.pos + 1) % 2 ^ 64 = s.pos + 1 := Nat.mod_eq_of_lt (by omega)
  rcases Nat.lt_or_ge eh.length ((s.pos + 1) % 2 ^ 64) with hneed | hneed
  · rw [szNeed_of_lt hneed]
    exact hs.weaken (Nat.zero_le _) (Nat.zero_le _)
  · rw [szNeed_of_le hneed]
    exact ⟨by omega, hs⟩

theorem szPeek_meets {R : SzState → Prop} :
    Meets (fun s => s.pos < eh.length ∧ s.Inv eh.length k p) (szPeek eh)
      (fun _ s => s.pos < eh.length ∧ s.Inv eh.length k p) R := by
  intro s hs
  rw [szPeek, load_of_lt hs.1]
  exact hs

theorem szAdvance_meets {R : SzState → Prop} (hmax : eh.length ≤ szHeaderMax) :
    Meets (fun s => s.pos < eh.length ∧ s.Inv eh.length k p) (szAdvance 1)
      (fun _ => Inv eh.length (k + 1) (p + 1)) R := by
  intro s hs
  rw [szHeaderMax] at hmax
  have hsum : (s.pos + 1) % 2 ^ 64 = s.pos + 1 := Nat.mod_eq_of_lt (by omega)
  have hmove : (s.moveTo (s.pos + 1)).Inv eh.length (k + 1) (p + 1) := hs.2.moveTo le_rfl hs.1
  rw [szAdvance, hsum]
  exact hmove

theorem szByte_meets (hmax : eh.length ≤ szHeaderMax) : Meets (Inv eh.length k p) (szByte eh)
    (fun _ => Inv eh.length (k + 1) (p + 1)) (Inv eh.length 0 0) := by
  refine (szNeed_meets hmax).bind fun _ => ?_
  refine szPeek_meets.bind fun b => ?_
  exact (szAdvance_meets hmax).bind fun _ => .pure fun _ hs => hs

theorem szExpect_meets (hmax : eh.length ≤ szHeaderMax) (tag : UInt8) :
    Meets (Inv eh.length k p) (szExpect eh tag)
      (fun _ => Inv eh.length (k + 1) (p + 1)) (Inv eh.length 0 0) := by
  refine (szByte_meets hmax).bind fun b => ?_
  refine .ite (fun _ => .pure fun _ hs => hs) fun _ => .stop fun _ hs => ?_
  exact hs.weaken (Nat.zero_le _) (Nat.zero_le _)

/-- The length is in the log of the skips before the sum is made. It passes the check where
it is in the header, and where it has wrapped; then the cursor goes back. -/
theorem szSkip_meets {n : ℕ} (hmax : eh.length ≤ szHeaderMax) (hn : n < 2 ^ 64) :
    Meets (Inv eh.length k p) (szSkip eh n) (fun _ => Inv eh.length k p) (Inv eh.length 0 0) := by
  intro s hs
  have hpos := hs.pos_le
  rw [szHeaderMax] at hmax
  let s' : SzState := { s with skips := (s.pos, n) :: s.skips }
  have hnote : szSkip eh n s = (do szNeed eh n; szAdvance n : Sz Unit) s' := bind_of_next rfl
  rw [hnote]
  rcases Nat.lt_or_ge eh.length ((s.pos + n) % 2 ^ 64) with hneed | hneed
  · rw [bind_of_stop (szNeed_of_lt (s := s') hneed)]
    exact (hs.skip fun h => by omega).weaken (Nat.zero_le _) (Nat.zero_le _)
  · rw [bind_of_next (szNeed_of_le (s := s') hneed)]
    by_cases hwrap : 2 ^ 64 ≤ s.pos + n
    · refine ⟨hneed, fun hskips => ?_, fun _ => ?_⟩
      · exact absurd ⟨hwrap, by omega⟩ (hskips (s.pos, n) List.mem_cons_self)
      · refine ⟨(s.pos, (s.pos + n) % 2 ^ 64), List.mem_cons_self, ?_⟩
        show (s.pos + n) % 2 ^ 64 < s.pos
        omega
    · have hsum : (s.pos + n) % 2 ^ 64 = s.pos + n := Nat.mod_eq_of_lt (by omega)
      have hskip := hs.skip fun h => hwrap h.1
      have hle : s.pos + 0 ≤ (s.pos + n) % 2 ^ 64 := by omega
      exact hskip.moveTo hle hneed

/-- A turn whose body moves the cursor on -/
theorem szTurn_meets {body : Sz Unit} (hbody : ∀ k p, Meets (Inv eh.length k p) body
      (fun _ => Inv eh.length (k + 1) (p + 1)) (Inv eh.length 0 0)) :
    Meets (Inv eh.length 1 0) (szTurn body) (fun _ => Inv eh.length 1 0) (Inv eh.length 0 0) := by
  intro s hs
  have hbegin : ({ s with begun := s.begun + 1 } : SzState).Inv eh.length 0 s.pos := by
    refine ⟨hs.pos_le, fun hskips => ?_, hs.back⟩
    obtain ⟨hmoves, hturns, hbegun, -⟩ := hs.forward hskips
    exact ⟨hmoves, hturns, hbegun, le_rfl⟩
  have hmeets : Meets (Inv eh.length 0 s.pos) (do body; szEnd s.pos)
      (fun _ => Inv eh.length 1 0) (Inv eh.length 0 0) := by
    refine (hbody 0 s.pos).bind fun _ s' hs' => ?_
    refine ⟨hs'.pos_le, fun hskips => ?_, hs'.back⟩
    obtain ⟨hmoves, hturns, hbegun, hpos⟩ := hs'.forward hskips
    exact ⟨hmoves, List.forall_mem_cons.mpr ⟨hpos, hturns⟩, hbegun, Nat.zero_le _⟩
  have hstart : szBegin s = .next s.pos { s with begun := s.begun + 1 } := rfl
  rw [szTurn, bind_of_next hstart]
  exact hmeets _ hbegin

theorem szLoop_meets {body : Sz Unit} (hbody : ∀ k p, Meets (Inv eh.length k p) body
      (fun _ => Inv eh.length (k + 1) (p + 1)) (Inv eh.length 0 0)) : ∀ n : ℕ,
    Meets (Inv eh.length 1 0) (szLoop body n) (fun _ => Inv eh.length 1 0) (Inv eh.length 0 0)
  | 0 => .pure fun _ hs => hs
  | n + 1 => (szTurn_meets hbody).bind fun _ => szLoop_meets hbody n

theorem szCoder_meets (hmax : eh.length ≤ szHeaderMax) : Meets (Inv eh.length k p) (szCoder eh)
    (fun _ => Inv eh.length (k + 1) (p + 1)) (Inv eh.length 0 0) := by
  refine (szByte_meets hmax).bind fun flags => ?_
  have hid : flags.toNat &&& 0x0F < 2 ^ 64 := by
    have hle : flags.toNat &&& 0x0F ≤ 0x0F := Nat.and_le_right
    omega
  refine (szSkip_meets hmax hid).bind fun _ => ?_
  refine (Meets.when (szDummy_keeps.bind fun _ => szDummy_keeps)).bind fun _ => ?_
  refine .when (szNum_meets.bind fun attrSize => .of_and fun hattr => ?_)
  refine (szSkip_meets hmax hattr).mono (fun _ hs => hs) fun _ _ hs => ?_
  exact hs.weaken (Nat.le_succ _) (Nat.le_succ _)

theorem Meets.leave {r : ℤ} {α : Type} {Q : α → SzState → Prop} :
    Meets (Inv eh.length k p) (Routine.stop r) Q (Inv eh.length 0 0) :=
  .stop fun _ hs => hs.weaken (Nat.zero_le _) (Nat.zero_le _)

theorem inv_one {k p : ℕ} {s : SzState} (hs : s.Inv eh.length (k + 1) p) : s.Inv eh.length 1 0 :=
  hs.weaken (Nat.le_add_left 1 k) (Nat.zero_le p)

theorem szExpect_one (hmax : eh.length ≤ szHeaderMax) (tag : UInt8) :
    Meets (Inv eh.length 1 0) (szExpect eh tag) (fun _ => Inv eh.length 1 0)
      (Inv eh.length 0 0) :=
  (szExpect_meets hmax tag).mono (fun _ hs => hs) fun _ _ hs => inv_one hs

theorem szNum_one : Meets (Inv eh.length 1 0) (szNum eh) (fun _ => Inv eh.length 1 0)
    (Inv eh.length 0 0) :=
  szNum_meets.mono (fun _ hs => hs) fun _ _ hs => inv_one hs.2

theorem szPackInfo_meets (hmax : eh.length ≤ szHeaderMax) :
    Meets (Inv eh.length 0 0) (szPackInfo eh) (fun _ => Inv eh.length 1 0)
      (Inv eh.length 0 0) := by
  have hfirst := (szExpect_meets hmax 0x01 (k := 0) (p := 0)).mono (fun _ hs => hs)
    fun _ _ hs => inv_one hs
  refine hfirst.bind fun _ => ?_
  refine (szNeed_meets hmax).bind fun _ => ?_
  refine (szPeek_meets.mono (fun _ hs => hs) fun _ _ hs => hs.2).bind fun b => ?_
  refine .ite (fun _ => Meets.leave) fun _ => ?_
  refine (szExpect_one hmax 0x04).bind fun _ => ?_
  refine (szExpect_one hmax 0x06).bind fun _ => ?_
  refine szDummy_keeps.bind fun _ => ?_
  refine szNum_one.bind fun numPack => ?_
  refine (szExpect_one hmax 0x09).bind fun _ => ?_
  refine (szLoop_meets (fun _ _ => szDummy_meets) numPack).bind fun _ => ?_
  exact (szExpect_one hmax 0x00).bind fun _ => .pure fun _ hs => hs

theorem szCoders_meets (hmax : eh.length ≤ szHeaderMax) :
    Meets (Inv eh.length 1 0) (szCoders eh) (fun _ => Inv eh.length 1 0)
      (Inv eh.length 0 0) := by
  refine (szExpect_one hmax 0x07).bind fun _ => ?_
  refine (szExpect_one hmax 0x0B).bind fun _ => ?_
  refine szNum_one.bind fun numFolders => ?_
  refine .ite (fun _ => Meets.leave) fun _ => ?_
  have hbyte := (szByte_meets hmax (k := 1) (p := 0)).mono (fun _ hs => hs)
    fun _ _ hs => inv_one hs
  refine hbyte.bind fun external => ?_
  refine .ite (fun _ => Meets.leave) fun _ => ?_
  refine szNum_one.bind fun numCoders => ?_
  refine .ite (fun _ => Meets.leave) fun _ => ?_
  exact (szLoop_meets (fun _ _ => szCoder_meets hmax) numCoders).bind fun _ =>
    .pure fun _ hs => hs

theorem szIndices_meets (numPack numCoders : ℕ) :
    Meets (Inv eh.length 1 0) (szIndices eh numPack numCoders) (fun _ => Inv eh.length 1 0)
      (Inv eh.length 0 0) := by
  have hpair : ∀ k p, Meets (Inv eh.length k p) (do szDummy eh; szDummy eh)
      (fun _ => Inv eh.length (k + 1) (p + 1)) (Inv eh.length 0 0) :=
    fun _ _ => szDummy_meets.bind fun _ => szDummy_keeps
  refine .when ((szLoop_meets hpair _).bind fun _ => ?_)
  exact .when (szLoop_meets (fun _ _ => szDummy_meets) _)

theorem szUnpackSize_meets (hmax : eh.length ≤ szHeaderMax) :
    Meets (Inv eh.length 1 0) (szUnpackSize eh) (fun _ => Inv eh.length 0 0)
      (Inv eh.length 0 0) := by
  refine (szNeed_meets hmax).bind fun _ => ?_
  refine szPeek_meets.bind fun firstTag => ?_
  refine (szAdvance_meets hmax).bind fun _ => ?_
  refine .ite (fun _ => Meets.leave) fun _ => ?_
  refine szNum_meets.bind fun unpackSize => .pure fun _ hs => ?_
  exact hs.2.weaken (Nat.zero_le _) (Nat.zero_le _)

theorem szWalk_meets (hmax : eh.length ≤ szHeaderMax) :
    Meets (Inv eh.length 0 0) (szWalk eh) (fun _ => Inv eh.length 0 0) (Inv eh.length 0 0) := by
  refine (szPackInfo_meets hmax).bind fun numPack => ?_
  refine (szCoders_meets hmax).bind fun numCoders => ?_
  exact (szIndices_meets numPack numCoders).bind fun _ => szUnpackSize_meets hmax

end

theorem SzState.start_inv (len : ℕ) : SzState.start.Inv len 0 0 where
  pos_le := Nat.zero_le len
  forward _ := ⟨nofun, nofun, le_rfl, le_rfl⟩
  back h := absurd nofun h

/-- For every end header the walk comes to its end and reads nothing outside of it; and the
cursor went forward, each turn moved it on, and there were no more turns than bytes, where
no length that was to be skipped wrapped the sum with the cursor back into the header. -/
theorem szWalk_forward_iff (h : EndHeader) :
    ∃ s, (szWalk h.bytes .start).final = some s ∧
      (s.Forward h.bytes.length ↔ s.SkipsForward h.bytes.length) := by
  obtain ⟨s, hfinal, hs⟩ := (szWalk_meets h.length_le).final (SzState.start_inv _)
  exact ⟨s, hfinal, hs.forward_iff⟩

/-- A header of 22 bytes, with 127 coders, of which the first has attributes of 2^64 - 10
bytes -/
def turningHeader : EndHeader where
  bytes := [0x01, 0x04, 0x06, 0x00, 0x00, 0x09, 0x00, 0x07, 0x0B, 0x01, 0x00, 0x7F,
    0x20, 0xFF, 0xF6, 0xFF, 0xFF, 0xFF, 0xFF, 0xFF, 0xFF, 0xFF]
  length_pos := by decide
  length_le := by decide

/-- Behind the attributes the cursor is at the coder they belong to, in each turn again. -/
theorem turningHeader_not_forward :
    ¬∃ s, (szWalk turningHeader.bytes .start).final = some s ∧
      s.Forward turningHeader.bytes.length := by
  rintro ⟨s, hfinal, hforward⟩
  have hbegun : ((szWalk turningHeader.bytes .start).final.map SzState.begun) = some 129 := by
    decide +kernel
  rw [hfinal, Option.map_some, Option.some_inj] at hbegun
  have hle := hforward.begun
  rw [hbegun] at hle
  exact absurd hle (by decide)

end Nawam
