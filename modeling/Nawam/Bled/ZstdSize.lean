import Nawam.Bled.Reader

/-!
# The size of a zstd file

The header of a Zstandard frame is a descriptor byte, a window descriptor, the id of a
dictionary and the content size, and the descriptor says which of the fields there are
and how long they are. `get_uncompress_size_zstd` looks for the content size behind the
window descriptor. Where there is an id of a dictionary, that is what stands there.
-/

namespace Nawam

/-! ## Source -/

abbrev zstdMagic : ℕ := 0xFD2FB528

/-- `cs_bytes`, unless the field is absent -/
def csBytes (fcsFlag ssFlag : ℕ) : Option ℕ :=
  if fcsFlag = 0 then
    if ssFlag = 0 then none else some 1
  else if fcsFlag = 1 then some 2
  else if fcsFlag = 2 then some 4
  else some 8

/-- The `switch` over `cs_bytes` -/
def csSize (csBytes : ℕ) (csBuf : List UInt8) : ℕ :=
  match csBytes with
  | 1 => getLe 1 csBuf 0
  | 2 => getLe 2 csBuf 0 + 256
  | 4 => getLe 4 csBuf 0
  | _ => getLe 8 csBuf 0

def getUncompressSizeZstd (file : List UInt8) : ℤ :=
  let size : Option ℤ := do
    let pos ← lseek 0 0
    let (buf, _) ← readExact file 6 pos
    if getLe 4 buf 0 ≠ zstdMagic then none
    else
      let fhd := getLe 1 buf 4
      let fcsFlag := (fhd >>> 6) &&& 0x03
      let ssFlag := (fhd >>> 5) &&& 0x01
      match csBytes fcsFlag ssFlag with
      | none => some decompSizeUnknown
      | some csBytes => do
          let pos ← lseek 0 (if ssFlag ≠ 0 then 5 else 6)
          let (csBuf, _) ← readExact file csBytes pos
          some (asInt64 (csSize csBytes csBuf))
  size.getD decompSizeError

/-! ## The format -/

/-- The length of the content size field, from the flags of the descriptor -/
def fcsFieldSize (fcsFlag ssFlag : ℕ) : ℕ := if fcsFlag = 0 then ssFlag else 2 ^ fcsFlag

def didFieldSize (fhd : UInt8) : ℕ :=
  match fhd.toNat % 4 with
  | 3 => 4
  | k => k

/-- What the content size field says. One of two bytes counts from 256. -/
def fieldValue (content : List UInt8) : ℕ :=
  if content.length = 2 then leValue content + 256 else leValue content

structure ZstdHeader where
  fhd : UInt8
  window : UInt8
  dictId : List UInt8
  content : List UInt8
  dictId_length : dictId.length = didFieldSize fhd
  content_length : content.length = fcsFieldSize (fhd.toNat / 64) (fhd.toNat / 32 % 2)

namespace ZstdHeader

def bytes (h : ZstdHeader) : List UInt8 :=
  leBytes 4 zstdMagic ++ (h.fhd :: ((if h.fhd.toNat / 32 % 2 = 1 then [] else [h.window])
    ++ (h.dictId ++ h.content)))

/-- The content size, where the header has it -/
def contentSize (h : ZstdHeader) : Option ℕ :=
  if h.content = [] then none else some (fieldValue h.content)

/-- The bytes behind the window descriptor, as many as the field has -/
def atOffset (h : ZstdHeader) : List UInt8 := (h.dictId ++ h.content).take h.content.length

end ZstdHeader

/-- A content size that fits is the result, and it is unknown where there is none. -/
def ReturnsContentSize (contentSize : Option ℕ) (r : ℤ) : Prop :=
  (∀ n, contentSize = some n → n < 2 ^ 63 → r = n) ∧
    (r = decompSizeUnknown ↔ contentSize = none)

/-! ## The fields -/

theorem flags_eq (fhd : UInt8) : (fhd.toNat >>> 6) &&& 0x03 = fhd.toNat / 64 ∧
    (fhd.toNat >>> 5) &&& 0x01 = fhd.toNat / 32 % 2 := by
  have hlt := fhd.toNat_lt
  have hfcs := Nat.and_two_pow_sub_one_eq_mod (fhd.toNat / 64) 2
  have hss := Nat.and_two_pow_sub_one_eq_mod (fhd.toNat / 32) 1
  rw [Nat.shiftRight_eq_div_pow, Nat.shiftRight_eq_div_pow]
  exact ⟨hfcs.trans (Nat.mod_eq_of_lt (by omega)), hss⟩

theorem csBytes_eq : ∀ fcsFlag < 4, ∀ ssFlag < 2, csBytes fcsFlag ssFlag =
    if fcsFieldSize fcsFlag ssFlag = 0 then none else some (fcsFieldSize fcsFlag ssFlag) := by
  decide

theorem fcsFieldSize_mem : ∀ fcsFlag < 4, ∀ ssFlag < 2,
    fcsFieldSize fcsFlag ssFlag ∈ [0, 1, 2, 4, 8] := by
  decide

section

variable {bs cs : List UInt8}

theorem csSize_eq (hmem : bs.length ∈ [0, 1, 2, 4, 8]) (hne : bs ≠ []) :
    csSize bs.length bs = fieldValue bs := by
  have hget : getLe bs.length bs 0 = leValue bs := by
    rw [getLe, fieldAt, Extent.slice, List.drop_zero, List.take_length]
  rw [fieldValue, ← hget]
  simp only [List.mem_cons, List.not_mem_nil, or_false] at hmem
  rcases hmem with hk | hk | hk | hk | hk
  · exact absurd (List.length_eq_zero_iff.mp hk) hne
  all_goals
    rw [hk]
    rfl

theorem leValue_inj : ∀ {bs cs : List UInt8}, bs.length = cs.length →
    leValue bs = leValue cs → bs = cs
  | [], [], _, _ => rfl
  | b :: bs, c :: cs, hlen, h => by
      have hb := b.toNat_lt
      have hc := c.toNat_lt
      rw [leValue, leValue] at h
      have hhead : b = c := UInt8.toNat_inj.mp (by omega)
      rw [hhead, leValue_inj (Nat.succ.inj hlen) (by omega)]

theorem fieldValue_inj (hlen : bs.length = cs.length) :
    fieldValue bs = fieldValue cs ↔ bs = cs := by
  constructor
  · intro h
    rw [fieldValue, fieldValue, hlen] at h
    split at h
    · exact leValue_inj hlen (Nat.add_right_cancel h)
    · exact leValue_inj hlen h
  · rintro rfl
    rfl

/-- The field has eight bytes at most, and those of two bytes leave room to count from 256. -/
theorem fieldValue_lt_pow (hmem : bs.length ∈ [0, 1, 2, 4, 8]) (hne : bs.length ≠ 8) :
    fieldValue bs < 2 ^ 64 - 2 := by
  have hlt := leValue_lt bs
  simp only [List.mem_cons, List.not_mem_nil, or_false] at hmem
  have hpow : 256 ^ bs.length ≤ 256 ^ 4 := Nat.pow_le_pow_right (by decide) (by omega)
  rw [fieldValue]
  split <;> omega

theorem fieldValue_of_eight (h : bs.length = 8) :
    fieldValue bs = leValue bs ∧ leValue bs < 2 ^ 64 := by
  have hlt := leValue_lt bs
  rw [h] at hlt
  exact ⟨if_neg (by omega), hlt⟩

theorem fieldValue_lt (hmem : bs.length ∈ [0, 1, 2, 4, 8]) : fieldValue bs < 2 ^ 64 := by
  by_cases height : bs.length = 8
  · obtain ⟨heq, hlt⟩ := fieldValue_of_eight height
    exact heq ▸ hlt
  · have hlt := fieldValue_lt_pow hmem height
    omega

/-- The one field that is read as the code for an unknown size -/
def unknownField : List UInt8 := leBytes 8 (2 ^ 64 - 2)

theorem unknownField_value : leValue unknownField = 2 ^ 64 - 2 :=
  leValue_leBytes 8 _ (by decide)

theorem asInt64_fieldValue_iff (hmem : bs.length ∈ [0, 1, 2, 4, 8]) :
    asInt64 (fieldValue bs) = decompSizeUnknown ↔ bs = unknownField := by
  have hlt := fieldValue_lt hmem
  have hunknown : asInt64 (fieldValue bs) = decompSizeUnknown ↔ fieldValue bs = 2 ^ 64 - 2 := by
    rcases Nat.lt_or_ge (fieldValue bs) (2 ^ 63) with h | h
    · rw [asInt64_of_lt h, decompSizeUnknown]
      omega
    · rw [asInt64_of_le h hlt, decompSizeUnknown]
      omega
  rw [hunknown]
  by_cases height : bs.length = 8
  · rw [(fieldValue_of_eight height).1, ← unknownField_value]
    exact ⟨leValue_inj height, congrArg leValue⟩
  · have hsmall := fieldValue_lt_pow hmem height
    constructor
    · omega
    · rintro rfl
      exact absurd rfl height

end

/-! ## The size that is returned -/

namespace ZstdHeader

variable (h : ZstdHeader) (rest : List UInt8)

theorem content_mem : h.content.length ∈ [0, 1, 2, 4, 8] := by
  have hlt := h.fhd.toNat_lt
  rw [h.content_length]
  exact fcsFieldSize_mem _ (by omega) _ (by omega)

theorem atOffset_length : h.atOffset.length = h.content.length := by
  rw [atOffset, List.length_take, List.length_append]
  omega

theorem csBytes_content : csBytes (h.fhd.toNat / 64) (h.fhd.toNat / 32 % 2) =
    if h.content = [] then none else some h.content.length := by
  have hlt := h.fhd.toNat_lt
  rw [csBytes_eq _ (by omega) _ (by omega), ← h.content_length]
  simp only [List.length_eq_zero_iff]

/-- The first six bytes are there: there is a window descriptor or a content size. -/
theorem bytes_front : ∃ (x : UInt8) (behind : List UInt8),
    h.bytes ++ rest = (leBytes 4 zstdMagic ++ [h.fhd, x]) ++ behind := by
  have hne : (if h.fhd.toNat / 32 % 2 = 1 then [] else [h.window]) ++ (h.dictId ++ h.content)
      ≠ [] := by
    by_cases hss : h.fhd.toNat / 32 % 2 = 1
    · have hlen := h.content_length
      rw [hss, fcsFieldSize] at hlen
      have hpos : 0 < h.content.length := by
        rw [hlen]
        split
        · exact Nat.one_pos
        · exact Nat.two_pow_pos _
      rw [if_pos hss]
      exact List.append_ne_nil_of_right_ne_nil _
        (List.append_ne_nil_of_right_ne_nil _ (List.ne_nil_of_length_pos hpos))
    · rw [if_neg hss]
      exact List.cons_ne_nil _ _
  obtain ⟨x, behind, hx⟩ := List.exists_cons_of_ne_nil hne
  refine ⟨x, behind ++ rest, ?_⟩
  rw [bytes, hx]
  rfl

theorem drop_offset : (h.bytes ++ rest).drop (if h.fhd.toNat / 32 % 2 ≠ 0 then 5 else 6) =
    h.atOffset ++ ((h.dictId ++ h.content).drop h.content.length ++ rest) := by
  rw [atOffset, ← List.append_assoc, List.take_append_drop, bytes]
  by_cases hss : h.fhd.toNat / 32 % 2 = 1
  · have hfront : (leBytes 4 zstdMagic ++ [h.fhd]).length = 5 := rfl
    rw [if_pos hss, if_pos (by omega)]
    exact List.drop_left' hfront
  · have hfront : (leBytes 4 zstdMagic ++ [h.fhd, h.window]).length = 6 := rfl
    rw [if_neg hss, if_neg (by omega)]
    exact List.drop_left' hfront

/-- What is returned for a file that starts with the header -/
theorem getUncompressSizeZstd_eq : getUncompressSizeZstd (h.bytes ++ rest) =
    if h.content = [] then decompSizeUnknown else asInt64 (fieldValue h.atOffset) := by
  obtain ⟨x, behind, hfront⟩ := h.bytes_front rest
  obtain ⟨hfcs, hss⟩ := flags_eq h.fhd
  have hread : readExact (h.bytes ++ rest) 6 0 = some (leBytes 4 zstdMagic ++ [h.fhd, x], 6) :=
    readExact_of_drop hfront rfl (by decide)
  have hmagic : getLe 4 (leBytes 4 zstdMagic ++ [h.fhd, x]) 0 = zstdMagic :=
    leValue_leBytes 4 zstdMagic (by decide)
  have hfhd : getLe 1 (leBytes 4 zstdMagic ++ [h.fhd, x]) 4 = h.fhd.toNat := rfl
  have hseek : lseek 0 (if h.fhd.toNat / 32 % 2 ≠ 0 then 5 else 6) =
      some (if h.fhd.toNat / 32 % 2 ≠ 0 then 5 else 6) := by
    split <;> rfl
  have hstart : lseek 0 0 = some 0 := rfl
  rw [getUncompressSizeZstd, hstart]
  simp only [Option.bind_eq_bind, Option.bind_some]
  rw [hread]
  simp only [Option.bind_some, hmagic, hfhd, hfcs, hss, ne_eq, not_true_eq_false, if_false]
  rw [h.csBytes_content]
  by_cases hcontent : h.content = []
  · rw [if_pos hcontent, if_pos hcontent]
    rfl
  · have hmem := h.content_mem
    have hlt : h.content.length < 2 ^ 31 := by
      simp only [List.mem_cons, List.not_mem_nil, or_false] at hmem
      omega
    have hat := h.atOffset_length
    have hne : h.atOffset ≠ [] := by
      intro hnil
      rw [hnil] at hat
      exact hcontent (List.length_eq_zero_iff.mp hat.symm)
    rw [if_neg hcontent, if_neg hcontent]
    simp only [ne_eq] at hseek ⊢
    rw [hseek, Option.bind_some, readExact_of_drop (h.drop_offset rest) hat hlt, Option.bind_some,
      Option.getD_some, ← hat, csSize_eq (hat ▸ hmem) hne]

/-- The content size is returned where the field stands at the offset of the frames that
have no dictionary id, or what stands there instead happens to be the same. -/
theorem getUncompressSizeZstd_iff :
    ReturnsContentSize h.contentSize (getUncompressSizeZstd (h.bytes ++ rest)) ↔
      (∀ n, h.contentSize = some n → n < 2 ^ 63 → h.atOffset = h.content) ∧
        h.atOffset ≠ unknownField := by
  have hat := h.atOffset_length
  have hmem : h.atOffset.length ∈ [0, 1, 2, 4, 8] := hat ▸ h.content_mem
  rw [getUncompressSizeZstd_eq, ReturnsContentSize, contentSize]
  by_cases hcontent : h.content = []
  · have hne : h.atOffset ≠ unknownField := by
      intro heq
      rw [heq, hcontent] at hat
      exact absurd hat (by decide)
    simp [hcontent, hne]
  · simp only [if_neg hcontent, Option.some.injEq, reduceCtorEq, iff_false]
    rw [asInt64_fieldValue_iff hmem, ne_eq]
    apply and_congr_left
    intro _
    constructor
    · rintro hright n rfl hfit
      have heq := hright _ rfl hfit
      have hlt := fieldValue_lt hmem
      have hsmall : fieldValue h.atOffset < 2 ^ 63 := by
        rw [← asInt64_nonneg_iff hlt, heq]
        exact Int.natCast_nonneg _
      rw [asInt64_of_lt hsmall] at heq
      exact (fieldValue_inj hat).mp (Int.ofNat_inj.mp heq)
    · rintro hright n rfl hfit
      rw [hright _ rfl hfit, asInt64_of_lt hfit]

end ZstdHeader

/-- A frame of 1 GiB that was compressed with a dictionary -/
def dictionaryHeader : ZstdHeader where
  fhd := 0x83
  window := 0x58
  dictId := [0x39, 0x05, 0x6a, 0x1c]
  content := [0x00, 0x00, 0x00, 0x40]
  dictId_length := rfl
  content_length := rfl

theorem dictionary_id_returned :
    ¬ ReturnsContentSize dictionaryHeader.contentSize
      (getUncompressSizeZstd (dictionaryHeader.bytes ++ [0x01, 0x00, 0x00])) := by
  rintro ⟨hsize, _⟩
  exact absurd (hsize 0x40000000 (by decide) (by decide)) (by decide)

end Nawam
