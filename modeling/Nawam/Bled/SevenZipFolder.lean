import Nawam.Bled.SevenZip

/-!
# The size of a 7z archive

The end header of an archive with one folder, as the format lays it out, and what
`get_uncompress_size_7zip` makes of it. Behind the coders of a folder there are the bind
pairs, one less than the coders have output streams, and the indices of the packed
streams, where there is not just one of them.

The walk skips one bind pair less than there are coders, and one index for each packed
stream that is not made up for by a bind pair. That is all where each coder has one output
stream and there is one packed stream at most; else some numbers are left, and the first
of them is taken for the tag behind them.
-/

namespace Nawam

/-! ## The format -/

/-- A number: the bytes behind the first one, which has their count in its leading ones, and
the bits of the number that the first byte has room for -/
structure SzNumber where
  extra : List UInt8
  high : ℕ
  extra_le : extra.length ≤ 8
  high_lt : high < 2 ^ (7 - extra.length)

namespace SzNumber

def first (n : SzNumber) : ℕ := 256 - 2 ^ (8 - n.extra.length) + n.high

def value (n : SzNumber) : ℕ := leValue n.extra + 256 ^ n.extra.length * n.high

def bytes (n : SzNumber) : List UInt8 := UInt8.ofNat n.first :: n.extra

end SzNumber

/-- A coder of a folder. It has one input and one output stream unless it says how many, and
attributes if it says so. -/
structure SzCoder where
  id : List UInt8
  streams : Option (SzNumber × SzNumber)
  attrs : Option (SzNumber × List UInt8)
  id_le : id.length ≤ 15
  attrs_length : ∀ a ∈ attrs, a.1.value = a.2.length

namespace SzCoder

def numIn (c : SzCoder) : ℕ := c.streams.elim 1 fun s => s.1.value

def numOut (c : SzCoder) : ℕ := c.streams.elim 1 fun s => s.2.value

def flags (c : SzCoder) : ℕ :=
  c.id.length + (if c.streams.isSome then 16 else 0) + (if c.attrs.isSome then 32 else 0)

def bytes (c : SzCoder) : List UInt8 :=
  UInt8.ofNat c.flags :: (c.id ++ (c.streams.elim [] (fun s => s.1.bytes ++ s.2.bytes)
    ++ c.attrs.elim [] fun a => a.1.bytes ++ a.2))

end SzCoder

def totalOut (coders : List SzCoder) : ℕ := (coders.map SzCoder.numOut).sum

/-- The input streams -/
def totalIn (coders : List SzCoder) : ℕ := (coders.map SzCoder.numIn).sum

/-- An end header with one folder. `front` are archive properties and additional streams,
`packDigests` those of the packed streams, and `behind` is what follows the sizes. Each
input stream is bound to an output stream or is a packed stream, and one output stream is
left. -/
structure SzHeader where
  front : List UInt8
  packPos : SzNumber
  numPack : SzNumber
  packSizes : List SzNumber
  packDigests : List UInt8
  numFolders : SzNumber
  numCoders : SzNumber
  coders : List SzCoder
  bindPairs : List (SzNumber × SzNumber)
  packed : List SzNumber
  size : SzNumber
  sizes : List SzNumber
  behind : List UInt8
  front_head : ∀ b ∈ front.head?, b = 0x02 ∨ b = 0x03
  packSizes_length : packSizes.length = numPack.value
  packDigests_head : ∀ b ∈ packDigests.head?, b = 0x0A
  numFolders_eq : numFolders.value = 1
  coders_length : coders.length = numCoders.value
  coders_ne : coders ≠ []
  numOut_pos : ∀ c ∈ coders, 0 < c.numOut
  bindPairs_length : bindPairs.length + 1 = totalOut coders
  numPack_eq : numPack.value + bindPairs.length = totalIn coders
  packed_length : packed.length = if numPack.value = 1 then 0 else numPack.value
  bindPairs_lt : ∀ b ∈ bindPairs, b.1.value < totalIn coders ∧ b.2.value < totalOut coders
  packed_lt : ∀ n ∈ packed, n.value < totalIn coders
  sizes_length : sizes.length + 1 = totalOut coders

namespace SzHeader

/-- The numbers between the coders and the sizes -/
def indices (h : SzHeader) : List SzNumber :=
  h.bindPairs.flatMap (fun b => [b.1, b.2]) ++ h.packed

def sizesBytes (h : SzHeader) : List UInt8 :=
  0x0C :: (h.size.bytes ++ (h.sizes.flatMap SzNumber.bytes ++ h.behind))

def folderBytes (h : SzHeader) : List UInt8 :=
  0x07 :: 0x0B :: (h.numFolders.bytes ++ (0x00 :: (h.numCoders.bytes
    ++ (h.coders.flatMap SzCoder.bytes ++ (h.indices.flatMap SzNumber.bytes ++ h.sizesBytes)))))

def bytes (h : SzHeader) : List UInt8 :=
  0x01 :: (h.front ++ (0x04 :: 0x06 :: (h.packPos.bytes ++ (h.numPack.bytes
    ++ (0x09 :: (h.packSizes.flatMap SzNumber.bytes ++ (h.packDigests
      ++ (0x00 :: h.folderBytes))))))))

end SzHeader

/-- An archive: the signature header, the packed streams and the end header -/
structure SzArchive where
  version : List UInt8
  startCrc : List UInt8
  headerCrc : List UInt8
  streams : List UInt8
  header : SzHeader
  version_length : version.length = 2
  startCrc_length : startCrc.length = 4
  headerCrc_length : headerCrc.length = 4
  streams_fit : header.packPos.value + (header.packSizes.map SzNumber.value).sum ≤ streams.length
  file_fits : 32 + streams.length + header.bytes.length < 2 ^ 63

namespace SzArchive

def signature (a : SzArchive) : List UInt8 :=
  szSig ++ a.version ++ a.startCrc ++ leBytes 8 a.streams.length ++ leBytes 8 a.header.bytes.length
    ++ a.headerCrc

def bytes (a : SzArchive) : List UInt8 := a.signature ++ (a.streams ++ a.header.bytes)

end SzArchive

/-! ## Numbers -/

namespace SzNumber

variable (n : SzNumber)

theorem first_lt : n.first < 256 := by
  have hhigh := n.high_lt
  have hlen := n.extra_le
  have hpow : 2 ^ (7 - n.extra.length) ≤ 2 ^ (8 - n.extra.length) :=
    Nat.pow_le_pow_right (by decide) (by omega)
  have hle : 2 ^ (8 - n.extra.length) ≤ 2 ^ 8 := Nat.pow_le_pow_right (by decide) (by omega)
  rw [first]
  omega

/-- There is a leading one in the first byte for each byte behind it. -/
theorem first_and_of_lt {k : ℕ} (hk : 7 < n.extra.length + k) (hlt : k < 8) :
    n.first &&& 2 ^ k ≠ 0 := by
  have hhigh := n.high_lt
  have hlen := n.extra_le
  have hpow : 2 ^ (8 - n.extra.length) ≤ 2 ^ k := Nat.pow_le_pow_right (by decide) (by omega)
  have hhalf : 2 ^ (7 - n.extra.length) ≤ 2 ^ (8 - n.extra.length) :=
    Nat.pow_le_pow_right (by decide) (by omega)
  have hall : 2 ^ (8 - k) * 2 ^ k = 256 := by
    rw [← Nat.pow_add, Nat.sub_add_cancel (Nat.le_of_lt hlt)]
  have hodd : 2 ^ (8 - k) = 2 * 2 ^ (7 - k) := by
    rw [← Nat.pow_succ', Nat.succ_eq_add_one]
    congr 1
    omega
  have hdiv : n.first / 2 ^ k = 2 ^ (8 - k) - 1 := by
    apply Nat.div_eq_of_lt_le
    · rw [Nat.sub_mul, hall, first]
      omega
    · rw [Nat.sub_add_cancel (Nat.two_pow_pos _), hall]
      exact n.first_lt
  intro hzero
  rw [and_two_pow_eq_zero_iff, hdiv, hodd] at hzero
  have hpos := Nat.two_pow_pos (7 - k)
  omega

/-- Then there is a zero, and the rest of the byte belongs to the number. -/
theorem first_and_of_eq {k : ℕ} (hk : n.extra.length + k = 7) :
    n.first &&& 2 ^ k = 0 ∧ n.first &&& (2 ^ k - 1) = n.high := by
  have hhigh : n.high < 2 ^ k := by
    have hlt := n.high_lt
    rw [show 7 - n.extra.length = k by omega] at hlt
    exact hlt
  have hall : 2 ^ (7 - k) * 2 ^ (k + 1) = 256 := by
    rw [← Nat.pow_add]
    rw [show 7 - k + (k + 1) = 8 by omega]
  have hfirst : n.first = 2 ^ k * ((2 ^ (7 - k) - 1) * 2) + n.high := by
    have hstep : 2 ^ (k + 1) = 2 * 2 ^ k := by rw [Nat.pow_succ']
    rw [first, show 8 - n.extra.length = k + 1 by omega, Nat.mul_comm, Nat.mul_assoc, ← hstep,
      Nat.sub_mul, hall, Nat.one_mul]
  have hpos : 0 < 2 ^ k := Nat.two_pow_pos k
  constructor
  · rw [and_two_pow_eq_zero_iff, hfirst, Nat.mul_add_div hpos, Nat.div_eq_of_lt hhigh]
    omega
  · rw [Nat.and_two_pow_sub_one_eq_mod, hfirst, Nat.mul_add_mod, Nat.mod_eq_of_lt hhigh]

/-- A number with this many bytes behind the first one is less than this. -/
theorem value_lt_pow : n.value < 256 ^ n.extra.length * 2 ^ (7 - n.extra.length) := by
  have hlow := leValue_lt n.extra
  calc n.value < 256 ^ n.extra.length + 256 ^ n.extra.length * n.high :=
        Nat.add_lt_add_right hlow _
    _ = 256 ^ n.extra.length * (n.high + 1) := by rw [Nat.mul_add, Nat.mul_one, Nat.add_comm]
    _ ≤ 256 ^ n.extra.length * 2 ^ (7 - n.extra.length) := Nat.mul_le_mul_left _ n.high_lt

theorem value_lt : n.value < 2 ^ 64 := by
  have hlen := n.extra_le
  have hpow : 256 ^ n.extra.length * 2 ^ (7 - n.extra.length) ≤ 2 ^ 64 := by
    rw [show (256 : ℕ) = 2 ^ 8 from rfl, ← Nat.pow_mul, ← Nat.pow_add]
    exact Nat.pow_le_pow_right (by decide) (by omega)
  exact lt_of_lt_of_le n.value_lt_pow hpow

end SzNumber

section

open Routine

variable {eh rest : List UInt8} {p : ℕ}

theorem mask_shiftRight (k : ℕ) : 2 ^ (k + 1) >>> 1 = 2 ^ k := by
  rw [Nat.shiftRight_eq_div_pow, Nat.pow_succ, Nat.pow_one, Nat.mul_div_cancel _ (by decide)]

/-- The loop, when some of the bytes behind the first one are read -/
theorem szReadNumLoop_eq (n : SzNumber) :
    ∀ (k : ℕ) (done : List UInt8) {left : List UInt8} {pos : ℕ}, done.length + k = 8 →
    n.extra = done ++ left → eh.drop pos = left ++ rest →
    szReadNumLoop eh eh.length n.first k (2 ^ k >>> 1) (leValue done) pos =
      .ok (n.value, pos + left.length) := by
  intro k
  induction k with
  | zero =>
      intro done left pos hdone hextra _
      have hlen := n.extra_le
      rw [Nat.add_zero] at hdone
      rw [hextra, List.length_append] at hlen
      have hleft : left = [] := List.length_eq_zero_iff.mp (by omega)
      have hzero : n.high = 0 := by
        have hlt := n.high_lt
        rw [hextra, hleft, List.append_nil, hdone] at hlt
        omega
      rw [szReadNumLoop, SzNumber.value, hextra, hleft, List.append_nil, hzero]
      rfl
  | succ k ih =>
      intro done left pos hdone hextra hdrop
      have hshift : (7 - k) * 8 = 8 * done.length := by omega
      have hpow : 2 ^ (8 * done.length) = 256 ^ done.length := Nat.pow_mul 2 8 _
      rw [mask_shiftRight, szReadNumLoop, hshift]
      cases left with
      | nil =>
          -- the first byte has no more ones
          rw [List.append_nil] at hextra
          obtain ⟨hzero, hhigh⟩ := n.first_and_of_eq (show n.extra.length + k = 7 by
            rw [hextra]
            omega)
          have hvalue : leValue done + n.high <<< (8 * done.length) = n.value := by
            rw [Nat.shiftLeft_eq, hpow, SzNumber.value, hextra, Nat.mul_comm n.high]
          rw [if_pos hzero, hhigh]
          simp only [hvalue, Nat.mod_eq_of_lt n.value_lt]
          rfl
      | cons b left =>
          have hone : ¬n.first &&& 2 ^ k = 0 := by
            refine n.first_and_of_lt ?_ (by omega)
            rw [hextra, List.length_append, List.length_cons]
            omega
          obtain ⟨hlt, hload, hnext⟩ := load_of_drop hdrop
          have hvalue : leValue done ||| b.toNat <<< (8 * done.length) = leValue (done ++ [b]) := by
            rw [or_shiftLeft (hpow ▸ leValue_lt done), leValue_append, hpow, Nat.mul_comm b.toNat]
            rfl
          rw [if_neg hone, if_neg (Nat.not_le.mpr hlt), hload, C.ok_bind, hvalue,
            ih (done ++ [b]) (by rw [List.length_append, List.length_singleton]; omega)
              (by rw [hextra, List.append_assoc]; rfl) hnext, List.length_cons, Nat.add_assoc,
            Nat.add_comm 1]

theorem szReadNum_eq (n : SzNumber) (h : eh.drop p = n.bytes ++ rest) :
    szReadNum eh eh.length p = .ok (n.value, p + n.bytes.length) := by
  rw [SzNumber.bytes, List.cons_append] at h
  obtain ⟨hlt, hload, hnext⟩ := load_of_drop h
  have hbyte : (UInt8.ofNat n.first).toNat = n.first := toNat_ofNat_of_lt n.first_lt
  have hloop := szReadNumLoop_eq n 8 [] rfl rfl hnext
  rw [szReadNum, if_neg (Nat.not_le.mpr hlt), hload, C.ok_bind, hbyte, SzNumber.bytes,
    List.length_cons, Nat.add_comm n.extra.length, ← Nat.add_assoc]
  exact hloop

end

/-! ## The walk over what is ahead -/

/-- What is left of the header -/
def ahead (eh : List UInt8) (s : SzState) : List UInt8 := eh.drop s.pos

section

open Routine

variable {eh rest : List UInt8} {b tag : UInt8}

theorem szNum_goes {n : SzNumber} (hv : n.value ≠ uint64Max) :
    Goes (ahead eh) (szNum eh) (n.bytes ++ rest) n.value rest := by
  intro s hs
  refine ⟨s.moveTo (s.pos + n.bytes.length), ?_, drop_of_drop hs rfl⟩
  rw [szNum, szReadNum_eq n hs]
  simp only [if_neg hv]

theorem szDummy_goes {n : SzNumber} (hv : n.value ≠ uint64Max) :
    Goes (ahead eh) (szDummy eh) (n.bytes ++ rest) () rest :=
  (szNum_goes hv).bind .pure

/-- Bytes that are there are no more than the header, whose size is capped. -/
theorem sum_of_ahead (bs : List UInt8) {s : SzState} (hmax : eh.length ≤ szHeaderMax)
    (hs : ahead eh s = bs ++ rest) (hne : bs ++ rest ≠ []) :
    (s.pos + bs.length) % 2 ^ 64 = s.pos + bs.length ∧ s.pos + bs.length ≤ eh.length := by
  have hpos := List.length_pos_iff.mpr hne
  have hlen := congrArg List.length hs
  rw [ahead, List.length_drop, List.length_append] at hlen
  rw [List.length_append] at hpos
  rw [szHeaderMax] at hmax
  omega

theorem szNeed_goes {t : List UInt8} (hmax : eh.length ≤ szHeaderMax) :
    Goes (ahead eh) (szNeed eh 1) (b :: t) () (b :: t) := by
  intro s hs
  obtain ⟨hsum, hle⟩ := sum_of_ahead [b] hmax hs (List.cons_ne_nil _ _)
  rw [List.length_singleton] at hsum hle
  exact ⟨s, szNeed_of_le (by omega), hs⟩

theorem szPeek_goes : Goes (ahead eh) (szPeek eh) (b :: rest) b (b :: rest) := by
  intro s hs
  obtain ⟨-, hload, -⟩ := load_of_drop hs
  refine ⟨s, ?_, hs⟩
  rw [szPeek, hload]

theorem szAdvance_goes (hmax : eh.length ≤ szHeaderMax) :
    Goes (ahead eh) (szAdvance 1) (b :: rest) () rest := by
  intro s hs
  obtain ⟨hsum, -⟩ := sum_of_ahead [b] hmax hs (List.cons_ne_nil _ _)
  rw [List.length_singleton] at hsum
  have hnext : eh.drop s.pos = [b] ++ rest := hs
  refine ⟨s.moveTo (s.pos + 1), ?_, drop_of_drop hnext rfl⟩
  rw [szAdvance, hsum]

theorem szByte_goes (hmax : eh.length ≤ szHeaderMax) :
    Goes (ahead eh) (szByte eh) (b :: rest) b rest :=
  (szNeed_goes hmax).bind (szPeek_goes.bind ((szAdvance_goes hmax).bind .pure))

theorem szExpect_goes (hmax : eh.length ≤ szHeaderMax) :
    Goes (ahead eh) (szExpect eh tag) (tag :: rest) () rest := by
  refine (szByte_goes hmax).bind ?_
  rw [if_pos rfl]
  exact .pure

theorem szExpect_stops (hmax : eh.length ≤ szHeaderMax) (hne : b ≠ tag) :
    Stops (ahead eh) (szExpect eh tag) (b :: rest) decompSizeError := by
  refine (szByte_goes hmax).bind_stops ?_
  rw [if_neg hne]
  exact .stop

theorem szSkip_goes {bs : List UInt8} (hmax : eh.length ≤ szHeaderMax) (hne : bs ++ rest ≠ []) :
    Goes (ahead eh) (szSkip eh bs.length) (bs ++ rest) () rest := by
  intro s hs
  obtain ⟨hsum, hle⟩ := sum_of_ahead bs hmax hs hne
  let s' : SzState := { s with skips := (s.pos, bs.length) :: s.skips }
  have hskip : szSkip eh bs.length s = (do szNeed eh bs.length; szAdvance bs.length : Sz Unit) s' :=
    bind_of_next rfl
  have hsum' : (s'.pos + bs.length) % 2 ^ 64 = s.pos + bs.length := hsum
  have hneed : (s'.pos + bs.length) % 2 ^ 64 ≤ eh.length := le_of_eq_of_le hsum' hle
  refine ⟨s'.moveTo (s.pos + bs.length), ?_, drop_of_drop hs rfl⟩
  rw [hskip, bind_of_next (szNeed_of_le hneed), szAdvance, hsum']

theorem szTurn_goes {body : Sz Unit} {t t' : List UInt8} (hbody : Goes (ahead eh) body t () t') :
    Goes (ahead eh) (szTurn body) t () t' := by
  intro s hs
  obtain ⟨s', hgo, hs'⟩ := hbody { s with begun := s.begun + 1 } hs
  refine ⟨{ s' with turns := (s.pos, s'.pos) :: s'.turns }, ?_, hs'⟩
  have hstart : szBegin s = .next s.pos { s with begun := s.begun + 1 } := rfl
  rw [szTurn, bind_of_next hstart, bind_of_next hgo]
  rfl

/-- A loop over what is there, one item a turn. The items are not the last in the header. -/
theorem szLoop_goes {ι : Type} {enc : ι → List UInt8} {body : Sz Unit} (hne : rest ≠ []) :
    ∀ {items : List ι},
      (∀ x ∈ items, ∀ rest ≠ [], Goes (ahead eh) body (enc x ++ rest) () rest) →
      Goes (ahead eh) (szLoop body items.length) (items.flatMap enc ++ rest) () rest
  | [], _ => .pure
  | x :: items, hbody => by
      obtain ⟨hx, hitems⟩ := List.forall_mem_cons.mp hbody
      have hbehind : items.flatMap enc ++ rest ≠ [] := List.append_ne_nil_of_right_ne_nil _ hne
      rw [List.flatMap_cons, List.append_assoc]
      exact (szTurn_goes (hx _ hbehind)).bind (szLoop_goes hne hitems)

/-- What is read of a coder: its flags say which fields there are. -/
theorem SzCoder.flags_eq (c : SzCoder) : (UInt8.ofNat c.flags).toNat = c.flags ∧
    c.flags &&& 0x0F = c.id.length ∧
    ((c.flags >>> 4) &&& 1 ≠ 0 ↔ c.streams.isSome) ∧
    ((c.flags >>> 5) &&& 1 ≠ 0 ↔ c.attrs.isSome) := by
  have hid := c.id_le
  have hvalue : c.flags =
      c.id.length + 16 * c.streams.isSome.toNat + 32 * c.attrs.isSome.toNat := by
    rw [flags]
    cases c.streams.isSome <;> cases c.attrs.isSome <;> rfl
  have hs := c.streams.isSome.toNat_le
  have ha := c.attrs.isSome.toNat_le
  have hlow : c.flags &&& 0x0F = c.flags % 16 := Nat.and_two_pow_sub_one_eq_mod c.flags 4
  have hstreams : (c.flags >>> 4) &&& 1 = c.flags / 16 % 2 := by
    rw [Nat.shiftRight_eq_div_pow]
    exact Nat.and_two_pow_sub_one_eq_mod (c.flags / 16) 1
  have hattrs : (c.flags >>> 5) &&& 1 = c.flags / 32 % 2 := by
    rw [Nat.shiftRight_eq_div_pow]
    exact Nat.and_two_pow_sub_one_eq_mod (c.flags / 32) 1
  rw [hlow, hstreams, hattrs, ← Bool.toNat_eq_one, ← Bool.toNat_eq_one]
  exact ⟨toNat_ofNat_of_lt (by omega), by omega, by omega, by omega⟩

/-- A coder whose numbers are no error codes -/
structure SzCoder.Readable (c : SzCoder) : Prop where
  numIn : c.numIn ≠ uint64Max
  numOut : c.numOut ≠ uint64Max
  attrs : ∀ a ∈ c.attrs, a.1.value ≠ uint64Max

theorem szCoder_goes {c : SzCoder} (hmax : eh.length ≤ szHeaderMax) (hc : c.Readable)
    (hne : rest ≠ []) : Goes (ahead eh) (szCoder eh) (c.bytes ++ rest) () rest := by
  obtain ⟨hflags, hid, hstreams, hattrs⟩ := c.flags_eq
  rw [SzCoder.bytes, List.cons_append, List.append_assoc, List.append_assoc]
  refine (szByte_goes hmax).bind ?_
  rw [hflags, hid]
  have hne' : c.streams.elim [] (fun s => s.1.bytes ++ s.2.bytes)
      ++ (c.attrs.elim [] (fun a => a.1.bytes ++ a.2) ++ rest) ≠ [] :=
    List.append_ne_nil_of_right_ne_nil _ (List.append_ne_nil_of_right_ne_nil _ hne)
  refine (szSkip_goes hmax (List.append_ne_nil_of_right_ne_nil _ hne')).bind ?_
  refine Goes.bind (show Goes (ahead eh) _ _ ()
    (c.attrs.elim [] (fun a => a.1.bytes ++ a.2) ++ rest) from ?_) ?_
  · cases hs : c.streams with
    | none =>
        rw [hs] at hstreams
        rw [Routine.when, if_neg (by simpa using hstreams)]
        exact .pure
    | some s =>
        rw [hs] at hstreams
        rw [Routine.when, if_pos (by simpa using hstreams)]
        have hin := hc.numIn
        have hout := hc.numOut
        rw [SzCoder.numIn, hs] at hin
        rw [SzCoder.numOut, hs] at hout
        rw [Option.elim_some, List.append_assoc]
        exact (szDummy_goes hin).bind (szDummy_goes hout)
  · cases ha : c.attrs with
    | none =>
        rw [ha] at hattrs
        rw [Routine.when, if_neg (by simpa using hattrs)]
        exact .pure
    | some a =>
        rw [ha] at hattrs
        have hlen := c.attrs_length a ha
        rw [Routine.when, if_pos (by simpa using hattrs), Option.elim_some, List.append_assoc]
        refine (szNum_goes (hc.attrs a ha)).bind ?_
        rw [hlen]
        exact szSkip_goes hmax (List.append_ne_nil_of_right_ne_nil _ hne)

theorem szLoop_numbers : ∀ {m : ℕ} {ns : List SzNumber}, m ≤ ns.length →
    (∀ n ∈ ns, n.value ≠ uint64Max) →
    Goes (ahead eh) (szLoop (szDummy eh) m) (ns.flatMap SzNumber.bytes ++ rest) ()
      ((ns.drop m).flatMap SzNumber.bytes ++ rest)
  | 0, _, _, _ => .pure
  | m + 1, [], h, _ => absurd h (Nat.not_succ_le_zero m)
  | m + 1, n :: ns, h, hns => by
      obtain ⟨hn, hrest⟩ := List.forall_mem_cons.mp hns
      rw [List.flatMap_cons, List.append_assoc, List.drop_succ_cons]
      exact (szTurn_goes (szDummy_goes hn)).bind (szLoop_numbers (Nat.le_of_succ_le_succ h) hrest)

theorem szLoop_pairs : ∀ {m : ℕ} {ns : List SzNumber}, 2 * m ≤ ns.length →
    (∀ n ∈ ns, n.value ≠ uint64Max) →
    Goes (ahead eh) (szLoop (do szDummy eh; szDummy eh) m) (ns.flatMap SzNumber.bytes ++ rest) ()
      ((ns.drop (2 * m)).flatMap SzNumber.bytes ++ rest)
  | 0, _, _, _ => .pure
  | m + 1, [], h, _ => absurd h (Nat.not_succ_le_zero _)
  | m + 1, [_], h, _ => absurd (Nat.le_of_succ_le_succ h) (Nat.not_succ_le_zero _)
  | m + 1, n :: n' :: ns, h, hns => by
      obtain ⟨hn, hns⟩ := List.forall_mem_cons.mp hns
      obtain ⟨hn', hns⟩ := List.forall_mem_cons.mp hns
      have hdrop : (n :: n' :: ns).drop (2 * (m + 1)) = ns.drop (2 * m) := rfl
      rw [hdrop, List.flatMap_cons, List.flatMap_cons, List.append_assoc, List.append_assoc]
      refine (szTurn_goes ((szDummy_goes hn).bind (szDummy_goes hn'))).bind ?_
      exact szLoop_pairs (Nat.le_of_succ_le_succ (Nat.le_of_succ_le_succ h)) hns

/-- How many numbers are skipped between the coders and the tag of the sizes -/
def szSkipped (numPack numCoders : ℕ) : ℕ :=
  if 1 < numCoders then 2 * (numCoders - 1) + (numPack - (numCoders - 1)) else 0

theorem szIndices_goes {numPack numCoders : ℕ} {ns : List SzNumber}
    (hle : szSkipped numPack numCoders ≤ ns.length) (hns : ∀ n ∈ ns, n.value ≠ uint64Max) :
    Goes (ahead eh) (szIndices eh numPack numCoders) (ns.flatMap SzNumber.bytes ++ rest) ()
      ((ns.drop (szSkipped numPack numCoders)).flatMap SzNumber.bytes ++ rest) := by
  rw [szSkipped] at hle ⊢
  rw [szIndices, Routine.when]
  by_cases hmany : 1 < numCoders
  · rw [if_pos hmany] at hle ⊢
    rw [if_pos hmany]
    refine (szLoop_pairs (by omega) hns).bind ?_
    rw [← List.drop_drop]
    by_cases hpack : numCoders - 1 < numPack
    · rw [Routine.when, if_pos hpack]
      refine szLoop_numbers ?_ fun n hn => hns n (List.mem_of_mem_drop hn)
      rw [List.length_drop]
      omega
    · have hnone : numPack - (numCoders - 1) = 0 := by omega
      rw [Routine.when, if_neg hpack, hnone]
      exact .pure
  · rw [if_neg hmany, if_neg hmany]
    exact .pure

theorem szUnpackSize_goes {n : SzNumber} (hmax : eh.length ≤ szHeaderMax)
    (hn : n.value ≠ uint64Max) :
    Goes (ahead eh) (szUnpackSize eh) (0x0C :: (n.bytes ++ rest)) (asInt64 n.value) rest := by
  refine (szNeed_goes hmax).bind (szPeek_goes.bind ((szAdvance_goes hmax).bind ?_))
  rw [if_neg (fun h => h rfl)]
  exact (szNum_goes hn).bind .pure

theorem szUnpackSize_stops (hmax : eh.length ≤ szHeaderMax) (hb : b ≠ 0x0C) :
    Stops (ahead eh) (szUnpackSize eh) (b :: rest) decompSizeError := by
  refine (szNeed_goes hmax).bind_stops (szPeek_goes.bind_stops
    ((szAdvance_goes hmax).bind_stops ?_))
  rw [if_pos hb]
  exact .stop

theorem szNum_stops {n : SzNumber} (hn : n.value = uint64Max) :
    Stops (ahead eh) (szNum eh) (n.bytes ++ rest) decompSizeError := by
  intro s hs
  refine ⟨s.moveTo (s.pos + n.bytes.length), ?_⟩
  rw [szNum, szReadNum_eq n hs]
  simp only [if_pos hn]

end

/-! ## What is in the header -/

theorem flatMap_length_of_mem {ι : Type} (enc : ι → List UInt8) : ∀ {items : List ι} {x : ι},
    x ∈ items → (enc x).length ≤ (items.flatMap enc).length
  | y :: items, x, h => by
      rw [List.flatMap_cons, List.length_append]
      rcases List.mem_cons.mp h with rfl | h
      · exact Nat.le_add_right ..
      · exact le_trans (flatMap_length_of_mem enc h) (Nat.le_add_left ..)

theorem numbers_length_le : ∀ ns : List SzNumber, ns.length ≤ (ns.flatMap SzNumber.bytes).length
  | [] => le_rfl
  | n :: ns => by
      have ih := numbers_length_le ns
      rw [List.flatMap_cons, List.length_append, SzNumber.bytes, List.length_cons, List.length_cons]
      omega

theorem le_sum_map {ι : Type} {f : ι → ℕ} : ∀ {items : List ι} {x : ι}, x ∈ items →
    f x ≤ (items.map f).sum
  | y :: items, x, h => by
      rw [List.map_cons, List.sum_cons]
      rcases List.mem_cons.mp h with rfl | h
      · exact Nat.le_add_right ..
      · exact le_trans (le_sum_map h) (Nat.le_add_left ..)

namespace SzHeader

variable (h : SzHeader)

/-- What is in the header is not more than the header. -/
theorem counts_le : h.packSizes.length ≤ h.bytes.length ∧ totalOut h.coders ≤ h.bytes.length ∧
    ∀ c ∈ h.coders, c.bytes.length ≤ h.bytes.length := by
  have hpack := numbers_length_le h.packSizes
  have hsizes := numbers_length_le h.sizes
  have htotal := h.sizes_length
  have hbytes : h.bytes.length = 1 + (h.front.length + (2 + (h.packPos.bytes.length
      + (h.numPack.bytes.length + (1 + ((h.packSizes.flatMap SzNumber.bytes).length
      + (h.packDigests.length + (1 + h.folderBytes.length)))))))) := by
    simp only [bytes, List.length_cons, List.length_append]
    omega
  have hfolder : h.folderBytes.length = 2 + (h.numFolders.bytes.length + (1
      + (h.numCoders.bytes.length + ((h.coders.flatMap SzCoder.bytes).length
      + ((h.indices.flatMap SzNumber.bytes).length + h.sizesBytes.length))))) := by
    simp only [folderBytes, List.length_cons, List.length_append]
    omega
  have hbehind : h.sizesBytes.length = 1 + (h.size.bytes.length
      + ((h.sizes.flatMap SzNumber.bytes).length + h.behind.length)) := by
    simp only [sizesBytes, List.length_cons, List.length_append]
    omega
  refine ⟨by omega, by omega, fun c hc => ?_⟩
  have hc := flatMap_length_of_mem SzCoder.bytes hc
  omega

/-- The numbers that are counts or indices are small, then. -/
theorem indices_small (hmax : h.bytes.length ≤ szHeaderMax) :
    ∀ n ∈ h.indices, n.value < 2 ^ 32 := by
  obtain ⟨hpack, hout, -⟩ := h.counts_le
  have hin := h.numPack_eq
  have hbind := h.bindPairs_length
  have hlen := h.packSizes_length
  rw [szHeaderMax] at hmax
  intro n hn
  rw [indices, List.mem_append, List.mem_flatMap] at hn
  rcases hn with ⟨b, hb, hn⟩ | hn
  · have hlt := h.bindPairs_lt b hb
    rcases List.mem_cons.mp hn with rfl | hn
    · omega
    · rw [List.mem_singleton.mp hn]
      omega
  · have hlt := h.packed_lt n hn
    omega

theorem coders_readable (hmax : h.bytes.length ≤ szHeaderMax) : ∀ c ∈ h.coders, c.Readable := by
  obtain ⟨hpack, hout, hbytes⟩ := h.counts_le
  have hin := h.numPack_eq
  have hbind := h.bindPairs_length
  have hlen := h.packSizes_length
  rw [szHeaderMax] at hmax
  intro c hc
  have hnumIn : c.numIn ≤ totalIn h.coders := le_sum_map hc
  have hnumOut : c.numOut ≤ totalOut h.coders := le_sum_map hc
  refine ⟨?_, ?_, fun a ha => ?_⟩
  · rw [uint64Max]
    omega
  · rw [uint64Max]
    omega
  · have hattrs : a.2.length ≤ c.bytes.length := by
      rw [SzCoder.bytes, ha, Option.elim_some]
      simp only [List.length_cons, List.length_append]
      omega
    have hle := hbytes c hc
    rw [c.attrs_length a ha, uint64Max]
    omega

/-- The coders have an output stream each, and some have more unless there are as many streams
as coders. -/
theorem coders_length_le : h.coders.length ≤ totalOut h.coders ∧
    (totalOut h.coders = h.coders.length ↔ ∀ c ∈ h.coders, c.numOut = 1) := by
  have hall : ∀ coders : List SzCoder, (∀ c ∈ coders, 0 < c.numOut) →
      (coders.length ≤ totalOut coders ∧
        (totalOut coders = coders.length ↔ ∀ c ∈ coders, c.numOut = 1)) := by
    intro coders
    induction coders with
    | nil => exact fun _ => ⟨le_rfl, fun _ => nofun, fun _ => rfl⟩
    | cons c coders ih =>
        intro hpos
        obtain ⟨hc, hrest⟩ := List.forall_mem_cons.mp hpos
        obtain ⟨hle, hiff⟩ := ih hrest
        rw [totalOut] at hle hiff ⊢
        rw [List.length_cons, List.map_cons, List.sum_cons, List.forall_mem_cons, ← hiff]
        omega
  exact hall h.coders h.numOut_pos

theorem indices_length : h.indices.length = 2 * h.bindPairs.length + h.packed.length := by
  have hpairs : ∀ bs : List (SzNumber × SzNumber),
      (bs.flatMap fun b => [b.1, b.2]).length = 2 * bs.length := by
    intro bs
    induction bs with
    | nil => rfl
    | cons b bs ih =>
        rw [List.flatMap_cons, List.length_append, ih, List.length_cons]
        simp only [List.length_cons, List.length_nil]
        omega
  rw [indices, List.length_append, hpairs]

theorem szSkipped_le : szSkipped h.numPack.value h.numCoders.value ≤ h.indices.length := by
  have hlen := h.indices_length
  have hbind := h.bindPairs_length
  have hcoders := h.coders_length_le.1
  have hnum := h.coders_length
  have hpacked := h.packed_length
  rw [szSkipped]
  split at hpacked <;> split <;> omega

/-- All is skipped where each coder has one output stream, and there is one packed stream at
most. -/
theorem szSkipped_eq_iff : szSkipped h.numPack.value h.numCoders.value = h.indices.length ↔
    (∀ c ∈ h.coders, c.numOut = 1) ∧ h.numPack.value ≤ 1 := by
  have hlen := h.indices_length
  have hbind := h.bindPairs_length
  obtain ⟨hcoders, hone⟩ := h.coders_length_le
  have hnum := h.coders_length
  have hpacked := h.packed_length
  have hpos := List.length_pos_iff.mpr h.coders_ne
  rw [← hone, szSkipped]
  split at hpacked <;> split <;> omega

/-- Nothing is left in front of the tag. -/
def Plain : Prop := (∀ c ∈ h.coders, c.numOut = 1) ∧ h.numPack.value ≤ 1

/-- What is left in front of the tag looks like the tag and the size. -/
def Alike : Prop :=
  match h.indices.drop (szSkipped h.numPack.value h.numCoders.value) with
  | [] => False
  | n :: more => n.bytes = [0x0C] ∧ h.size.value = more.head?.elim 0x0C SzNumber.value

end SzHeader

/-! ## The size that is returned -/

section

open Routine

variable {h : SzHeader}

/-- The result of the walk, from what is ahead in the beginning -/
theorem getUncompressSize7zip_of_goes {file eh rest : List UInt8} {r : ℤ}
    (hread : szReadHeader file = some eh) (hgo : Goes (ahead eh) (szWalk eh) eh r rest) :
    getUncompressSize7zip file = .ok r := by
  obtain ⟨s, hs, -⟩ := hgo .start rfl
  rw [getUncompressSize7zip, hread]
  simp only [hs]

theorem getUncompressSize7zip_of_stops {file eh : List UInt8} {r : ℤ}
    (hread : szReadHeader file = some eh) (hstop : Stops (ahead eh) (szWalk eh) eh r) :
    getUncompressSize7zip file = .ok r := by
  obtain ⟨s, hs⟩ := hstop .start rfl
  rw [getUncompressSize7zip, hread]
  simp only [hs]

theorem SzHeader.numPack_ne (hmax : h.bytes.length ≤ szHeaderMax) :
    h.numPack.value ≠ uint64Max := by
  obtain ⟨hpack, -, -⟩ := h.counts_le
  rw [← h.packSizes_length, uint64Max]
  rw [szHeaderMax] at hmax
  omega

theorem szPackInfo_goes (hmax : h.bytes.length ≤ szHeaderMax) (hfront : h.front = [])
    (hdigests : h.packDigests = []) (hpos : h.packPos.value ≠ uint64Max)
    (hsizes : ∀ n ∈ h.packSizes, n.value ≠ uint64Max) :
    Goes (ahead h.bytes) (szPackInfo h.bytes) h.bytes h.numPack.value h.folderBytes := by
  have hnum := h.numPack_ne hmax
  have hbytes : h.bytes = 0x01 :: 0x04 :: 0x06 :: (h.packPos.bytes ++ (h.numPack.bytes
      ++ (0x09 :: (h.packSizes.flatMap SzNumber.bytes ++ (0x00 :: h.folderBytes))))) := by
    rw [SzHeader.bytes, hfront, hdigests]
    rfl
  have hgo : Goes (ahead h.bytes) (szPackInfo h.bytes)
      (0x01 :: 0x04 :: 0x06 :: (h.packPos.bytes ++ (h.numPack.bytes
        ++ (0x09 :: (h.packSizes.flatMap SzNumber.bytes ++ (0x00 :: h.folderBytes))))))
      h.numPack.value h.folderBytes := by
    refine (szExpect_goes hmax).bind ((szNeed_goes hmax).bind (szPeek_goes.bind ?_))
    rw [if_neg (by decide)]
    refine (szExpect_goes hmax).bind ((szExpect_goes hmax).bind ?_)
    refine (szDummy_goes hpos).bind ((szNum_goes hnum).bind ((szExpect_goes hmax).bind ?_))
    rw [← h.packSizes_length]
    refine (szLoop_goes (List.cons_ne_nil _ _) fun n hn rest _ =>
      szDummy_goes (hsizes n hn)).bind ?_
    exact (szExpect_goes hmax).bind .pure
  rw [← hbytes] at hgo
  exact hgo

/-- Archive properties and additional streams are not expected. -/
theorem szPackInfo_stops_front (hmax : h.bytes.length ≤ szHeaderMax) (hfront : h.front ≠ []) :
    Stops (ahead h.bytes) (szPackInfo h.bytes) h.bytes decompSizeError := by
  obtain ⟨b, more, hb⟩ := List.exists_cons_of_ne_nil hfront
  have hhead := h.front_head b (by rw [hb]; rfl)
  have hne : b ≠ 0x17 ∧ b ≠ 0x04 := by
    rcases hhead with rfl | rfl <;> decide
  obtain ⟨rest, hbytes⟩ : ∃ rest, h.bytes = 0x01 :: b :: rest := by
    rw [SzHeader.bytes, hb]
    exact ⟨_, rfl⟩
  have hstop : Stops (ahead h.bytes) (szPackInfo h.bytes) (0x01 :: b :: rest) decompSizeError := by
    refine (szExpect_goes hmax).bind_stops ((szNeed_goes hmax).bind_stops
      (szPeek_goes.bind_stops ?_))
    rw [if_neg hne.1]
    exact (szExpect_stops hmax hne.2).bind
  rw [← hbytes] at hstop
  exact hstop

/-- Digests of the packed streams are not expected. -/
theorem szPackInfo_stops_digests (hmax : h.bytes.length ≤ szHeaderMax) (hfront : h.front = [])
    (hdigests : h.packDigests ≠ []) (hpos : h.packPos.value ≠ uint64Max)
    (hsizes : ∀ n ∈ h.packSizes, n.value ≠ uint64Max) :
    Stops (ahead h.bytes) (szPackInfo h.bytes) h.bytes decompSizeError := by
  have hnum := h.numPack_ne hmax
  obtain ⟨b, more, hb⟩ := List.exists_cons_of_ne_nil hdigests
  have hhead : b = 0x0A := h.packDigests_head b (by rw [hb]; rfl)
  obtain ⟨rest, hbytes⟩ : ∃ rest, h.bytes = 0x01 :: 0x04 :: 0x06 :: (h.packPos.bytes
      ++ (h.numPack.bytes ++ (0x09 :: (h.packSizes.flatMap SzNumber.bytes ++ (b :: rest))))) := by
    rw [SzHeader.bytes, hfront, hb]
    exact ⟨_, rfl⟩
  have hstop : Stops (ahead h.bytes) (szPackInfo h.bytes)
      (0x01 :: 0x04 :: 0x06 :: (h.packPos.bytes ++ (h.numPack.bytes
        ++ (0x09 :: (h.packSizes.flatMap SzNumber.bytes ++ (b :: rest)))))) decompSizeError := by
    refine (szExpect_goes hmax).bind_stops ((szNeed_goes hmax).bind_stops
      (szPeek_goes.bind_stops ?_))
    rw [if_neg (by decide)]
    refine (szExpect_goes hmax).bind_stops ((szExpect_goes hmax).bind_stops ?_)
    refine (szDummy_goes hpos).bind_stops ((szNum_goes hnum).bind_stops
      ((szExpect_goes hmax).bind_stops ?_))
    rw [← h.packSizes_length]
    refine (szLoop_goes (List.cons_ne_nil _ _) fun n hn rest _ =>
      szDummy_goes (hsizes n hn)).bind_stops ?_
    exact (szExpect_stops hmax (by rw [hhead]; decide)).bind
  rw [← hbytes] at hstop
  exact hstop

theorem szCoders_goes (hmax : h.bytes.length ≤ szHeaderMax) :
    Goes (ahead h.bytes) (szCoders h.bytes) h.folderBytes h.numCoders.value
      (h.indices.flatMap SzNumber.bytes ++ h.sizesBytes) := by
  have hreadable := h.coders_readable hmax
  have hcount : h.coders.length ≤ h.bytes.length := le_trans h.coders_length_le.1 h.counts_le.2.1
  have hfolders : h.numFolders.value ≠ uint64Max := by
    rw [h.numFolders_eq]
    decide
  have hnum : h.numCoders.value ≠ uint64Max := by
    rw [← h.coders_length, uint64Max]
    rw [szHeaderMax] at hmax
    omega
  have hne : ¬h.numCoders.value = 0 := by
    rw [← h.coders_length]
    exact Nat.pos_iff_ne_zero.mp (List.length_pos_iff.mpr h.coders_ne)
  refine (szExpect_goes hmax).bind ((szExpect_goes hmax).bind ((szNum_goes hfolders).bind ?_))
  rw [if_neg (by simp [h.numFolders_eq])]
  refine (szByte_goes hmax).bind ?_
  rw [if_neg (by decide)]
  refine (szNum_goes hnum).bind ?_
  rw [if_neg hne, ← h.coders_length]
  have hbehind : h.indices.flatMap SzNumber.bytes ++ h.sizesBytes ≠ [] :=
    List.append_ne_nil_of_right_ne_nil _ (List.cons_ne_nil _ _)
  exact (szLoop_goes hbehind fun c hc rest hrest =>
    szCoder_goes hmax (hreadable c hc) hrest).bind .pure

/-- The numbers between the coders and the sizes are skipped, as far as they are. -/
theorem szIndices_of_header (hmax : h.bytes.length ≤ szHeaderMax) :
    Goes (ahead h.bytes) (szIndices h.bytes h.numPack.value h.numCoders.value)
      (h.indices.flatMap SzNumber.bytes ++ h.sizesBytes) ()
      ((h.indices.drop (szSkipped h.numPack.value h.numCoders.value)).flatMap SzNumber.bytes
        ++ h.sizesBytes) := by
  refine szIndices_goes h.szSkipped_le fun n hn => ?_
  have hlt := h.indices_small hmax n hn
  rw [uint64Max]
  omega

/-- The walk, up to what it takes for the tag of the sizes -/
theorem szWalk_tail_goes (hmax : h.bytes.length ≤ szHeaderMax) {t : List UInt8} {r : ℤ}
    (hpack : Goes (ahead h.bytes) (szPackInfo h.bytes) h.bytes h.numPack.value h.folderBytes)
    (hsize : Goes (ahead h.bytes) (szUnpackSize h.bytes)
      ((h.indices.drop (szSkipped h.numPack.value h.numCoders.value)).flatMap SzNumber.bytes
        ++ h.sizesBytes) r t) :
    Goes (ahead h.bytes) (szWalk h.bytes) h.bytes r t := by
  exact hpack.bind ((szCoders_goes hmax).bind ((szIndices_of_header hmax).bind hsize))

theorem szWalk_tail_stops (hmax : h.bytes.length ≤ szHeaderMax) {r : ℤ}
    (hpack : Goes (ahead h.bytes) (szPackInfo h.bytes) h.bytes h.numPack.value h.folderBytes)
    (hsize : Stops (ahead h.bytes) (szUnpackSize h.bytes)
      ((h.indices.drop (szSkipped h.numPack.value h.numCoders.value)).flatMap SzNumber.bytes
        ++ h.sizesBytes) r) :
    Stops (ahead h.bytes) (szWalk h.bytes) h.bytes r := by
  exact hpack.bind_stops ((szCoders_goes hmax).bind_stops
    ((szIndices_of_header hmax).bind_stops hsize))

/-- The number behind the tag, or behind what looks like it -/
theorem szUnpackSize_result {file : List UInt8} (hread : szReadHeader file = some h.bytes)
    (hmax : h.bytes.length ≤ szHeaderMax)
    (hpack : Goes (ahead h.bytes) (szPackInfo h.bytes) h.bytes h.numPack.value h.folderBytes)
    (n : SzNumber) (rest : List UInt8)
    (hahead : (h.indices.drop (szSkipped h.numPack.value h.numCoders.value)).flatMap SzNumber.bytes
        ++ h.sizesBytes = 0x0C :: (n.bytes ++ rest)) :
    getUncompressSize7zip file =
      .ok (if n.value = uint64Max then decompSizeError else asInt64 n.value) := by
  by_cases hn : n.value = uint64Max
  · have hstop : Stops (ahead h.bytes) (szUnpackSize h.bytes) (0x0C :: (n.bytes ++ rest))
        decompSizeError := by
      refine (szNeed_goes hmax).bind_stops (szPeek_goes.bind_stops
        ((szAdvance_goes hmax).bind_stops ?_))
      rw [if_neg (fun h => h rfl)]
      exact (szNum_stops hn).bind
    rw [← hahead] at hstop
    rw [if_pos hn]
    exact getUncompressSize7zip_of_stops hread (szWalk_tail_stops hmax hpack hstop)
  · have hgo : Goes (ahead h.bytes) (szUnpackSize h.bytes) (0x0C :: (n.bytes ++ rest))
        (asInt64 n.value) rest := szUnpackSize_goes hmax hn
    rw [← hahead] at hgo
    rw [if_neg hn]
    exact getUncompressSize7zip_of_goes hread (szWalk_tail_goes hmax hpack hgo)

/-- A number that starts as the tag is one byte. -/
theorem bytes_of_tag {n : SzNumber} (hn : UInt8.ofNat n.first = 0x0C) : n.bytes = [0x0C] := by
  have hfirst : n.first = 12 := by
    rw [← toNat_ofNat_of_lt n.first_lt, hn]
    rfl
  have hextra : n.extra = [] := by
    by_contra hne
    have hpos := List.length_pos_iff.mpr hne
    have hpow : 2 ^ (8 - n.extra.length) ≤ 2 ^ 7 := Nat.pow_le_pow_right (by decide) (by omega)
    rw [SzNumber.first] at hfirst
    omega
  rw [SzNumber.bytes, hn, hextra]

def tagNumber : SzNumber := ⟨[], 0x0C, Nat.zero_le 8, by decide⟩

/-- What is left of the indices is all, or starts with a number that is not the tag, or with
one that is, and what follows it is taken for the size. -/
theorem getUncompressSize7zip_indices {file : List UInt8}
    (hread : szReadHeader file = some h.bytes) (hmax : h.bytes.length ≤ szHeaderMax)
    (hpack : Goes (ahead h.bytes) (szPackInfo h.bytes) h.bytes h.numPack.value h.folderBytes) :
    getUncompressSize7zip file = .ok (h.size.value : ℤ) ↔
      h.size.value < 2 ^ 63 ∧ (h.Plain ∨ h.Alike) := by
  have hsize := h.size.value_lt
  have hplain : h.Plain ↔
      h.indices.drop (szSkipped h.numPack.value h.numCoders.value) = [] := by
    rw [SzHeader.Plain, ← h.szSkipped_eq_iff, List.drop_eq_nil_iff]
    exact ⟨fun heq => le_of_eq heq.symm, fun hle => le_antisymm h.szSkipped_le hle⟩
  have hsmall : ∀ n ∈ h.indices.drop (szSkipped h.numPack.value h.numCoders.value),
      n.value < 2 ^ 32 :=
    fun n hn => h.indices_small hmax n (List.mem_of_mem_drop hn)
  have hresult := szUnpackSize_result hread hmax hpack
  have hstops := fun r => szWalk_tail_stops (r := r) hmax hpack
  rw [hplain, SzHeader.Alike]
  cases hleft : h.indices.drop (szSkipped h.numPack.value h.numCoders.value) with
  | nil =>
      rw [hleft] at hresult
      rw [hresult h.size _ rfl, Except.ok.injEq]
      by_cases hmaxval : h.size.value = uint64Max
      · rw [if_pos hmaxval, hmaxval, decompSizeError]
        exact ⟨fun heq => absurd heq (by decide), fun hlt => absurd hlt.1 (by decide)⟩
      · rw [if_neg hmaxval, asInt64_eq_self_iff hsize]
        simp
  | cons n more =>
      rw [hleft] at hresult hsmall hstops
      by_cases htag : UInt8.ofNat n.first = 0x0C
      · have hbytes := bytes_of_tag htag
        obtain ⟨m, rest, hm, hvalue, hlt⟩ : ∃ m rest, more.flatMap SzNumber.bytes ++ h.sizesBytes
            = SzNumber.bytes m ++ rest ∧ m.value = more.head?.elim 0x0C SzNumber.value ∧
            m.value < 2 ^ 32 := by
          cases more with
          | nil => exact ⟨tagNumber, _, rfl, rfl, by decide⟩
          | cons m more =>
              have hmem : m ∈ n :: m :: more := List.mem_cons_of_mem _ List.mem_cons_self
              exact ⟨m, more.flatMap SzNumber.bytes ++ h.sizesBytes, List.append_assoc .., rfl,
                hsmall m hmem⟩
        have hahead : (n :: more).flatMap SzNumber.bytes ++ h.sizesBytes =
            0x0C :: (m.bytes ++ rest) := by
          rw [List.flatMap_cons, hbytes, List.append_assoc, hm]
          rfl
        have hne : ¬m.value = uint64Max := by
          rw [uint64Max]
          omega
        rw [hresult m rest hahead, if_neg hne, asInt64_of_lt (by omega), Except.ok.injEq]
        simp only [reduceCtorEq, false_or, hbytes, true_and, ← hvalue]
        omega
      · have hstop := getUncompressSize7zip_of_stops hread (hstops decompSizeError (by
          rw [List.flatMap_cons, SzNumber.bytes]
          exact szUnpackSize_stops hmax htag))
        have hbytes : ¬n.bytes = [0x0C] := by
          intro heq
          exact htag (List.head_eq_of_cons_eq heq)
        rw [hstop, Except.ok.injEq, decompSizeError]
        simp only [reduceCtorEq, false_or, hbytes, false_and, and_false]

end

namespace SzArchive

variable (a : SzArchive)

theorem signature_length : a.signature.length = 32 := by
  rw [signature]
  simp only [List.length_append, leBytes_length, a.version_length, a.startCrc_length,
    a.headerCrc_length]
  rfl

theorem signature_fields : Extent.slice a.signature (0, 6) = szSig ∧
    getLe 8 a.signature 12 = a.streams.length ∧
    getLe 8 a.signature 20 = a.header.bytes.length := by
  have hfits := a.file_fits
  have hoffset : a.signature.drop 12 = leBytes 8 a.streams.length
      ++ (leBytes 8 a.header.bytes.length ++ a.headerCrc) := by
    have hlen : (szSig ++ a.version ++ a.startCrc).length = 12 := by
      rw [List.length_append, List.length_append, a.version_length, a.startCrc_length]
      rfl
    rw [signature]
    simp only [List.append_assoc] at hlen ⊢
    rw [← List.append_assoc a.version, ← List.append_assoc szSig]
    exact List.drop_left' hlen
  have hsize := drop_of_drop hoffset (leBytes_length 8 _)
  refine ⟨?_, ?_, ?_⟩
  · rw [signature, Extent.slice, List.drop_zero]
    simp only [List.append_assoc]
    rfl
  · rw [getLe, fieldAt, Extent.slice, hoffset, List.take_left' (leBytes_length 8 _)]
    exact leValue_leBytes 8 _ (by omega)
  · rw [getLe, fieldAt, Extent.slice, hsize, List.take_left' (leBytes_length 8 _)]
    exact leValue_leBytes 8 _ (by omega)

/-- The end header is read where it is no larger than the cap. -/
theorem szReadHeader_eq : szReadHeader a.bytes =
    if a.header.bytes.length ≤ szHeaderMax then some a.header.bytes else none := by
  have hfits := a.file_fits
  have hpos : 0 < a.header.bytes.length := by
    rw [SzHeader.bytes, List.length_cons]
    exact Nat.succ_pos _
  have hstart : a.bytes.drop 0 = a.signature ++ (a.streams ++ a.header.bytes) := rfl
  have hread : readExact a.bytes 32 0 = some (a.signature, 32) :=
    readExact_of_drop hstart a.signature_length (by decide)
  obtain ⟨hsig, hoffset, hsize⟩ := a.signature_fields
  have hbehind : a.bytes.drop (32 + a.streams.length) = a.header.bytes ++ [] := by
    rw [List.append_nil]
    exact drop_of_drop (drop_of_drop hstart a.signature_length) rfl
  have hseek : lseek 0 (asInt64 ((32 + a.streams.length) % 2 ^ 64)) =
      some (32 + a.streams.length) := by
    rw [Nat.mod_eq_of_lt (by omega), asInt64_of_lt (by omega), lseek_natCast, Nat.zero_add]
  have hzero : lseek 0 0 = some 0 := rfl
  rw [szReadHeader, hzero]
  simp only [Option.bind_eq_bind, Option.bind_some]
  rw [hread, Option.bind_some]
  simp only [hsig, hoffset, hsize, ne_eq, not_true_eq_false, if_false]
  by_cases hmax : a.header.bytes.length ≤ szHeaderMax
  · rw [if_pos hmax, if_neg (by omega), hseek, Option.bind_some,
      readExact_of_drop hbehind rfl (by rw [szHeaderMax] at hmax; omega), Option.bind_some]
  · rw [if_neg hmax, if_pos (Or.inr (Nat.lt_of_not_le hmax))]

/-- The packed streams are in the archive, which is a file. -/
theorem packPos_ne : a.header.packPos.value ≠ uint64Max := by
  have hfit := a.streams_fit
  have hfile := a.file_fits
  rw [uint64Max]
  omega

theorem packSizes_ne : ∀ n ∈ a.header.packSizes, n.value ≠ uint64Max := by
  have hfit := a.streams_fit
  have hfile := a.file_fits
  intro n hn
  have hle : n.value ≤ (a.header.packSizes.map SzNumber.value).sum :=
    le_sum_map hn
  rw [uint64Max]
  omega

/-- The size is the first one of the folder where the header has no parts that are not
expected and is not too large, the size fits, and either each coder has one output stream
and there is one packed stream at most, or what is left of the indices happens to look like
the tag and the size. -/
theorem getUncompressSize7zip_iff :
    getUncompressSize7zip a.bytes = .ok (a.header.size.value : ℤ) ↔
      a.header.bytes.length ≤ szHeaderMax ∧ a.header.front = [] ∧ a.header.packDigests = [] ∧
        a.header.size.value < 2 ^ 63 ∧ (a.header.Plain ∨ a.header.Alike) := by
  have herror : (.ok decompSizeError : C ℤ) ≠ .ok (a.header.size.value : ℤ) := by
    rw [ne_eq, Except.ok.injEq, decompSizeError]
    omega
  have hread := a.szReadHeader_eq
  by_cases hmax : a.header.bytes.length ≤ szHeaderMax
  · rw [if_pos hmax] at hread
    by_cases hfront : a.header.front = []
    · by_cases hdigests : a.header.packDigests = []
      · have hpack := szPackInfo_goes hmax hfront hdigests a.packPos_ne a.packSizes_ne
        rw [getUncompressSize7zip_indices hread hmax hpack]
        exact ⟨fun h => ⟨hmax, hfront, hdigests, h⟩, fun h => h.2.2.2⟩
      · have hstop := szPackInfo_stops_digests hmax hfront hdigests a.packPos_ne a.packSizes_ne
        rw [getUncompressSize7zip_of_stops hread hstop.bind]
        exact ⟨fun h => absurd h herror, fun h => absurd h.2.2.1 hdigests⟩
    · have hstop := szPackInfo_stops_front hmax hfront
      rw [getUncompressSize7zip_of_stops hread hstop.bind]
      exact ⟨fun h => absurd h herror, fun h => absurd h.2.1 hfront⟩
  · rw [if_neg hmax] at hread
    rw [getUncompressSize7zip, hread]
    exact ⟨fun h => absurd h herror, fun h => absurd h.1 hmax⟩

end SzArchive

def oneByte (v : ℕ) (h : v < 128) : SzNumber := ⟨[], v, Nat.zero_le 8, h⟩

/-- A coder for LZMA, with its five bytes of attributes -/
def lzmaCoder : SzCoder where
  id := [0x03, 0x01, 0x01]
  streams := none
  attrs := some (oneByte 5 (by decide), [0x5D, 0x00, 0x00, 0x10, 0x00])
  id_le := by decide
  attrs_length := by
    intro a ha
    cases ha
    rfl

/-- The coder for programs, of four input streams -/
def bcj2Coder : SzCoder where
  id := [0x03, 0x03, 0x01, 0x1B]
  streams := some (oneByte 4 (by decide), oneByte 1 (by decide))
  attrs := none
  id_le := by decide
  attrs_length := nofun

/-- What 7-Zip writes for a program of 100 bytes: three of the inputs of the one coder come
from another one each, and there are four packed streams. -/
def programArchive : SzArchive where
  version := [0x00, 0x04]
  startCrc := [0x00, 0x00, 0x00, 0x00]
  headerCrc := [0x00, 0x00, 0x00, 0x00]
  streams := List.replicate 27 0x00
  header := {
    front := []
    packPos := oneByte 0 (by decide)
    numPack := oneByte 4 (by decide)
    packSizes := [oneByte 10 (by decide), oneByte 6 (by decide), oneByte 6 (by decide),
      oneByte 5 (by decide)]
    packDigests := []
    numFolders := oneByte 1 (by decide)
    numCoders := oneByte 4 (by decide)
    coders := [bcj2Coder, lzmaCoder, lzmaCoder, lzmaCoder]
    bindPairs := [(oneByte 0 (by decide), oneByte 1 (by decide)),
      (oneByte 1 (by decide), oneByte 2 (by decide)),
      (oneByte 2 (by decide), oneByte 3 (by decide))]
    packed := [oneByte 4 (by decide), oneByte 5 (by decide), oneByte 6 (by decide),
      oneByte 3 (by decide)]
    size := oneByte 100 (by decide)
    sizes := [oneByte 90 (by decide), oneByte 4 (by decide), oneByte 8 (by decide)]
    behind := [0x00, 0x00, 0x00]
    front_head := nofun
    packSizes_length := rfl
    packDigests_head := nofun
    numFolders_eq := rfl
    coders_length := rfl
    coders_ne := List.cons_ne_nil _ _
    numOut_pos := by decide
    bindPairs_length := rfl
    numPack_eq := rfl
    packed_length := rfl
    bindPairs_lt := by decide
    packed_lt := by decide
    sizes_length := rfl }
  version_length := rfl
  startCrc_length := rfl
  headerCrc_length := rfl
  streams_fit := by decide
  file_fits := by decide

/-- The second of the indices of the packed streams is taken for the tag. -/
theorem programArchive_size_missed :
    getUncompressSize7zip programArchive.bytes ≠ .ok (programArchive.header.size.value : ℤ) := by
  have herror : getUncompressSize7zip programArchive.bytes = .ok decompSizeError := by
    decide +kernel
  rw [herror]
  exact fun h => absurd (Except.ok.inj h) (by decide)

end Nawam
