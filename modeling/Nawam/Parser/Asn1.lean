import Nawam.Parser.Oid

/-!
# The walk over ASN.1 data

`get_data_from_asn1` looks for the first piece of data of a type behind an
object identifier, in signature data that comes with a download. The walk goes
through the elements in order and into the constructed ones, and carries one
flag: whether the object identifier has been seen. `asn1Items` lists what it
comes to, from the bytes alone; `asn1Walk_eq` says that the walk is a search
of this list. What is behind the end of an element is not its own: a nested
call gets the bytes of its element, and a read past them is a fault.
-/

namespace Nawam

/-! ## `get_data_from_asn1` -/

/-- The length octets: the position behind them and the length, `none` for
`return FALSE`. -/
def asn1Length (buf : List UInt8) (pos : ℕ) : C (Option (ℕ × ℕ)) := do
  let c ← load buf pos
  if c &&& 0x80 ≠ 0 then
    let lenLen := (c &&& 0x7F).toNat
    if 2 < lenLen then return none
    else
      let len ← (List.range lenLen).foldlM (fun len i => do
        let x ← load buf (pos + 1 + i)
        return len <<< 8 + x.toNat) 0
      return some (pos + 1 + lenLen, len)
  else return some (pos + 1, c.toNat)

/-- Where the contents behind a tag start, and their length; `none` for
`return FALSE`. A null element has no length octets that are looked at. -/
def asn1Contents (buf : List UInt8) (pos : ℕ) (isUniversalTag : Bool) (tag : UInt8) :
    C (Option (ℕ × ℕ)) :=
  if isUniversalTag = true ∧ tag = 0x05 then return some (pos + 1, 0)
  else do
    match ← asn1Length buf pos with
    | none => return none
    | some (pos, len) =>
        if buf.length - pos < len then return none
        else return some (pos, len)

/-- The test for the object identifier that is looked for. -/
def asn1Match (oid buf : List UInt8) (pos len : ℕ) (tag : UInt8) (matched : Bool) : C Bool :=
  if matched = false ∧ tag = 0x06 ∧ len = oid.length then do
    let content ← loadN buf pos len
    return decide (content = oid)
  else return false

/-- `get_data_from_asn1_internal` from position `pos` on: whether there was no
error, `data` as the offset in the whole buffer and its length, and `matched`.
`base` is where the element starts in the whole buffer. -/
def asn1Walk (oid : List UInt8) (asn1Type : UInt8) :
    ℕ → List UInt8 → ℕ → ℕ → Bool → C (Bool × Option (ℕ × ℕ) × Bool)
  | 0, _, _, _, _ => .error .outOfFuel
  | fuel + 1, buf, base, pos, matched =>
      if buf.length ≤ pos then return (true, none, matched)
      else do
        let b ← load buf pos
        let isUniversalTag := decide (b &&& 0xC0 = 0)
        let tag := b &&& 0x1F
        if tag = 0x1F then return (false, none, matched)
        else
          match ← asn1Contents buf (pos + 1) isUniversalTag tag with
          | none => return (false, none, matched)
          | some (pos, len) =>
              if len ≠ 0 ∧ b &&& 0x20 ≠ 0 then
                let element ← loadN buf pos len
                match ← asn1Walk oid asn1Type fuel element (base + pos) 0 matched with
                | (false, data, matched) => return (false, data, matched)
                | (true, some data, matched) => return (true, some data, matched)
                | (true, none, matched) =>
                    asn1Walk oid asn1Type fuel buf base (pos + len) matched
              else if len ≠ 0 ∧ isUniversalTag = true then
                if ← asn1Match oid buf pos len tag matched then
                  asn1Walk oid asn1Type fuel buf base (pos + len) true
                else if matched = true ∧ tag = asn1Type then
                  return (true, some (base + pos, len), matched)
                else asn1Walk oid asn1Type fuel buf base (pos + len) matched
              else asn1Walk oid asn1Type fuel buf base (pos + len) matched

/-- `get_data_from_asn1`: `data` and `data_len`. -/
def getDataFromAsn1 (malloc : ℕ → Option (List UInt8)) (buf : List UInt8)
    (oidStr : Option (List UInt8)) (asn1Type : UInt8) : C (Option (ℕ × ℕ)) :=
  let matched := decide ((oidStr.getD []).headD Ascii.nul = Ascii.nul)
  if 65536 ≤ buf.length then return none
  else if matched then do
    let r ← asn1Walk [] asn1Type (buf.length + 1) buf 0 0 matched
    return r.2.1
  else do
    match ← oidFromStr malloc oidStr with
    | none => return none
    | some (oid, oidLen) =>
        let oid ← loadN oid 0 oidLen
        let r ← asn1Walk oid asn1Type (buf.length + 1) buf 0 0 matched
        return r.2.1

/-! ## What the bytes are -/

/-- A primitive element: where its contents start, and the contents. -/
structure Asn1Primitive where
  isUniversal : Bool
  tag : UInt8
  start : ℕ
  content : List UInt8
deriving DecidableEq

/-- The bytes in pre-order: the primitive elements, down to the first header
that is not supported or is cut off by the end of what it is in. -/
inductive Asn1Item where
  | primitive (p : Asn1Primitive)
  | unsupported
  | cut
deriving DecidableEq

/-- What length octets at the front of some bytes say. -/
inductive LengthField where
  /-- how many octets, and the length -/
  | octets (size len : ℕ)
  | unsupported
  | cut

def lengthField : List UInt8 → LengthField
  | [] => .cut
  | c :: cs =>
      if c &&& 0x80 = 0 then .octets 1 c.toNat
      else
        match (c &&& 0x7F).toNat, cs with
        | 0, _ => .octets 1 0
        | 1, x :: _ => .octets 2 x.toNat
        | 2, x :: y :: _ => .octets 3 (256 * x.toNat + y.toNat)
        | n, _ => if 2 < n then .unsupported else .cut

/-- The items of some bytes that start at offset `start`. -/
def asn1Items : ℕ → ℕ → List UInt8 → List Asn1Item
  | 0, _, _ => []
  | _ + 1, _, [] => []
  | fuel + 1, start, b :: bs =>
      let isUniversal := decide (b &&& 0xC0 = 0)
      let tag := b &&& 0x1F
      if tag = 0x1F then [.unsupported]
      else
        match if isUniversal = true ∧ tag = 0x05 then .octets 1 0 else lengthField bs with
        | .cut => [.cut]
        | .unsupported => [.unsupported]
        | .octets size len =>
            let behind := bs.drop size
            let start := start + 1 + size
            if behind.length < len then [.unsupported]
            else
              let content := behind.take len
              (if b &&& 0x20 ≠ 0 then asn1Items fuel start content
                else [.primitive ⟨isUniversal, tag, start, content⟩])
                ++ asn1Items fuel (start + len) (behind.drop len)

def searchItems (oid : List UInt8) (asn1Type : UInt8) :
    Bool → List Asn1Item → C (Bool × Option (ℕ × ℕ) × Bool)
  | matched, [] => .ok (true, none, matched)
  | matched, .unsupported :: _ => .ok (false, none, matched)
  | _, .cut :: _ => .error .outOfBounds
  | matched, .primitive p :: items =>
      if p.content ≠ [] ∧ p.isUniversal = true then
        if matched = false ∧ p.tag = 0x06 ∧ p.content = oid then
          searchItems oid asn1Type true items
        else if matched = true ∧ p.tag = asn1Type then
          .ok (true, some (p.start, p.content.length), matched)
        else searchItems oid asn1Type matched items
      else searchItems oid asn1Type matched items

/-- What a search of a first part leaves to the second. -/
theorem searchItems_append (oid : List UInt8) (asn1Type : UInt8) (its' : List Asn1Item) :
    ∀ (its : List Asn1Item) (matched : Bool),
      searchItems oid asn1Type matched (its ++ its') = (do
        match ← searchItems oid asn1Type matched its with
        | (true, none, matched) => searchItems oid asn1Type matched its'
        | r => return r)
  | [], matched => rfl
  | .unsupported :: its, matched => rfl
  | .cut :: its, matched => rfl
  | .primitive p :: its, matched => by
      have ih := searchItems_append oid asn1Type its' its
      simp only [List.cons_append, searchItems]
      split
      · split
        · exact ih true
        · split
          · rfl
          · exact ih matched
      · exact ih matched

/-! ## The walk is a search -/

section Reads

variable {buf : List UInt8} {pos : ℕ}

/-- The length octets are read as they stand. -/
theorem asn1Length_eq (buf : List UInt8) (pos : ℕ) :
    asn1Length buf pos =
      match lengthField (buf.drop pos) with
      | .cut => .error .outOfBounds
      | .unsupported => .ok none
      | .octets size len => .ok (some (pos + size, len)) := by
  cases hc : buf.drop pos with
  | nil =>
      rw [asn1Length, load_of_drop_nil hc]
      rfl
  | cons c cs =>
      obtain ⟨-, hload, hrest⟩ := load_of_drop hc
      rw [asn1Length, hload, C.ok_bind, lengthField.eq_def]
      dsimp only
      by_cases hshort : c &&& 0x80 = 0
      · rw [if_pos hshort, if_neg (not_not.mpr hshort)]
        rfl
      · rw [if_neg hshort, if_pos hshort]
        generalize (c &&& 0x7F).toNat = n
        match n, cs with
        | 0, _ => rfl
        | 1, [] =>
            simp [List.range_succ, load_of_drop_nil hrest]
        | 1, x :: cs =>
            simp [List.range_succ, (load_of_drop hrest).2.1]
        | 2, [] =>
            simp [List.range_succ, load_of_drop_nil hrest]
        | 2, [x] =>
            obtain ⟨-, hx, hnil⟩ := load_of_drop hrest
            simp [List.range_succ, hx, load_of_drop_nil hnil]
        | 2, x :: y :: cs =>
            obtain ⟨-, hx, hrest'⟩ := load_of_drop hrest
            have hy := (load_of_drop hrest').2.1
            simp [List.range_succ, hx, hy, Nat.shiftLeft_eq, Nat.mul_comm]
        | n + 3, _ =>
            have hbig : 2 < n + 3 := by omega
            simp [hbig]

/-- The header is read as it stands, and the length is held against what is
left. -/
theorem asn1Contents_eq (buf : List UInt8) (pos : ℕ) (isUniversal : Bool) (tag : UInt8) :
    asn1Contents buf pos isUniversal tag =
      match if isUniversal = true ∧ tag = 0x05 then .octets 1 0
        else lengthField (buf.drop pos) with
      | .cut => .error .outOfBounds
      | .unsupported => .ok none
      | .octets size len =>
          if (buf.drop (pos + size)).length < len then .ok none
          else .ok (some (pos + size, len)) := by
  rw [asn1Contents]
  by_cases hnull : isUniversal = true ∧ tag = 0x05
  · rw [if_pos hnull, if_pos hnull]
    rfl
  · rw [if_neg hnull, if_neg hnull, asn1Length_eq]
    cases lengthField (buf.drop pos) with
    | cut => rfl
    | unsupported => rfl
    | octets size len =>
        rw [C.ok_bind]
        simp only [List.length_drop]
        rfl

end Reads

theorem asn1Match_eq {oid buf content : List UInt8} {pos len : ℕ} {tag : UInt8}
    {matched : Bool} (hload : loadN buf pos len = .ok content) (hlen : content.length = len) :
    asn1Match oid buf pos len tag matched
      = .ok (decide (matched = false ∧ tag = 0x06 ∧ content = oid)) := by
  rw [asn1Match]
  by_cases h : matched = false ∧ tag = 0x06 ∧ len = oid.length
  · rw [if_pos h, hload, C.ok_bind]
    simp [h.1, h.2.1]
  · rw [if_neg h, C.pure_eq]
    congr 1
    refine (decide_eq_false ?_).symm
    rintro ⟨hmatched, htag, rfl⟩
    exact h ⟨hmatched, htag, hlen.symm⟩

theorem asn1Items_nil (fuel start : ℕ) : asn1Items fuel start [] = [] := by
  cases fuel with
  | zero => rfl
  | succ fuel => rfl

/-- The contents that a header leaves room for -/
theorem contents_of_room {buf : List UInt8} {pos len : ℕ} (h : ¬(buf.drop pos).length < len) :
    ((buf.drop pos).take len).length = len ∧ ((buf.drop pos).take len ≠ [] ↔ len ≠ 0) ∧
      (len ≠ 0 → loadN buf pos len = .ok ((buf.drop pos).take len)) := by
  have hlen : ((buf.drop pos).take len).length = len := by
    rw [List.length_take]
    exact min_eq_left (Nat.le_of_not_lt h)
  rw [List.length_drop] at h
  refine ⟨hlen, ?_, fun hne => loadN_of_le (by omega)⟩
  rw [← List.length_pos_iff, hlen, Nat.pos_iff_ne_zero]

/-- The walk searches the items of what is left of its element. -/
theorem asn1Walk_eq (oid : List UInt8) (asn1Type : UInt8) :
    ∀ (fuel : ℕ) (buf : List UInt8) (base pos : ℕ) (matched : Bool),
      (buf.drop pos).length < fuel →
      asn1Walk oid asn1Type fuel buf base pos matched
        = searchItems oid asn1Type matched (asn1Items fuel (base + pos) (buf.drop pos))
  | fuel + 1, buf, base, pos, matched, hfuel => by
      cases hdrop : buf.drop pos with
      | nil =>
          have hend : buf.length ≤ pos := List.drop_eq_nil_iff.mp hdrop
          rw [asn1Walk, if_pos hend]
          rfl
      | cons b bs =>
          have hinside : ¬buf.length ≤ pos := by
            intro hend
            rw [List.drop_eq_nil_iff.mpr hend] at hdrop
            cases hdrop
          obtain ⟨-, hload, hbs⟩ := load_of_drop hdrop
          rw [asn1Walk, if_neg hinside, hload, C.ok_bind, asn1Items]
          by_cases hlong : b &&& 0x1F = 0x1F
          · simp only [hlong, if_true]
            rfl
          simp only [hlong, if_false]
          rw [asn1Contents_eq, hbs]
          generalize (if decide (b &&& 0xC0 = 0) = true ∧ b &&& 0x1F = 0x05 then
            LengthField.octets 1 0 else lengthField bs) = field
          cases field with
          | cut => rfl
          | unsupported => rfl
          | octets size len =>
              have hbehind : bs.drop size = buf.drop (pos + 1 + size) := by
                rw [← hbs, List.drop_drop]
              simp only [hbehind]
              by_cases hover : (buf.drop (pos + 1 + size)).length < len
              · rw [if_pos hover, if_pos hover]
                rfl
              · obtain ⟨hlen, hfull, hcontent⟩ := contents_of_room hover
                rw [if_neg hover, if_neg hover, C.ok_bind]
                rw [List.length_drop] at hover hfuel
                have hnext : ∀ m, asn1Walk oid asn1Type fuel buf base (pos + 1 + size + len) m
                    = searchItems oid asn1Type m (asn1Items fuel
                        (base + pos + 1 + size + len)
                        ((buf.drop (pos + 1 + size)).drop len)) := by
                  intro m
                  have hless : (buf.drop (pos + 1 + size + len)).length < fuel := by
                    rw [List.length_drop]
                    omega
                  rw [asn1Walk_eq oid asn1Type fuel buf base _ m hless, List.drop_drop]
                  simp only [Nat.add_assoc]
                dsimp only
                by_cases hseq : b &&& 0x20 ≠ 0
                · rw [if_pos hseq, searchItems_append]
                  by_cases hne : len ≠ 0
                  · -- into the element, and on behind it
                    have hinner := asn1Walk_eq oid asn1Type fuel
                      ((buf.drop (pos + 1 + size)).take len) (base + (pos + 1 + size)) 0
                      matched (by rw [List.drop_zero, hlen]; omega)
                    rw [List.drop_zero, Nat.add_zero] at hinner
                    rw [if_pos ⟨hne, hseq⟩, hcontent hne, C.ok_bind, hinner]
                    simp only [← Nat.add_assoc]
                    cases searchItems oid asn1Type matched (asn1Items fuel
                        (base + pos + 1 + size) ((buf.drop (pos + 1 + size)).take len)) with
                    | error e => rfl
                    | ok r =>
                        match r with
                        | (false, data, m) => rfl
                        | (true, some data, m) => rfl
                        | (true, none, m) => exact hnext m
                  · -- an empty element has no items
                    have hzero : len = 0 := not_not.mp hne
                    have hnone : asn1Items fuel (base + pos + 1 + size)
                        ((buf.drop (pos + 1 + size)).take len) = [] := by
                      rw [hzero, List.take_zero, asn1Items_nil]
                    rw [if_neg fun h => hne h.1, if_neg fun h => hne h.1, hnone, hnext matched]
                    rfl
                · rw [if_neg hseq, List.singleton_append, searchItems, if_neg fun h => hseq h.2]
                  by_cases hdata : len ≠ 0 ∧ decide (b &&& 0xC0 = 0) = true
                  · have hmatch : asn1Match oid buf (pos + 1 + size) len (b &&& 0x1F) matched
                        = _ := asn1Match_eq (hcontent hdata.1) hlen
                    have hpiece : (buf.drop (pos + 1 + size)).take len ≠ [] ∧
                        decide (b &&& 0xC0 = 0) = true := ⟨hfull.mpr hdata.1, hdata.2⟩
                    rw [if_pos hdata, if_pos hpiece, hmatch, C.ok_bind]
                    simp only [decide_eq_true_eq, hlen, hnext]
                    rw [← Nat.add_assoc, ← Nat.add_assoc]
                    rfl
                  · rw [if_neg hdata, if_neg fun h => hdata ⟨hfull.mp h.1, h.2⟩, hnext matched]

/-! ## What is looked for -/

/-- Data of the type: a primitive element of the UNIVERSAL class that is not
empty. -/
def Asn1Primitive.isData (asn1Type : UInt8) (p : Asn1Primitive) : Bool :=
  p.isUniversal && p.tag = asn1Type && p.content ≠ []

/-- The object identifier itself. -/
def Asn1Primitive.isOid (oid : List UInt8) (p : Asn1Primitive) : Bool :=
  p.isUniversal && p.tag = 0x06 && p.content = oid

/-- The first data of a type behind the first element that is the given object
identifier; from the start on if none is given. -/
def firstAfter (oid : Option (List UInt8)) (asn1Type : UInt8) (ps : List Asn1Primitive) :
    Option Asn1Primitive :=
  match oid with
  | none => ps.find? (·.isData asn1Type)
  | some oid => ((ps.dropWhile fun p => !p.isOid oid).drop 1).find? (·.isData asn1Type)

section Search

variable {oid : List UInt8} {asn1Type : UInt8} {rest : List Asn1Item}

theorem searchItems_cons {p : Asn1Primitive} {its : List Asn1Item} {matched : Bool} :
    searchItems oid asn1Type matched (.primitive p :: its)
      = if p.content ≠ [] ∧ p.isUniversal = true then
          if matched = false ∧ p.tag = 0x06 ∧ p.content = oid then
            searchItems oid asn1Type true its
          else if matched = true ∧ p.tag = asn1Type then
            .ok (true, some (p.start, p.content.length), matched)
          else searchItems oid asn1Type matched its
        else searchItems oid asn1Type matched its := rfl

/-- With the flag set the search is for the first data. -/
theorem searchItems_matched : ∀ ps : List Asn1Primitive,
    searchItems oid asn1Type true (ps.map .primitive ++ rest)
      = match firstAfter none asn1Type ps with
        | some p => .ok (true, some (p.start, p.content.length), true)
        | none => searchItems oid asn1Type true rest
  | [] => rfl
  | p :: ps => by
      have ih := searchItems_matched ps
      rw [List.map_cons, List.cons_append, searchItems_cons, firstAfter, List.find?_cons]
      by_cases hdata : p.isData asn1Type = true
      · have hparts := hdata
        simp only [Asn1Primitive.isData, Bool.and_eq_true, decide_eq_true_eq] at hparts
        rw [hdata, if_pos ⟨hparts.2, hparts.1.1⟩, if_neg fun h => Bool.noConfusion h.1,
          if_pos ⟨rfl, hparts.1.2⟩]
      · rw [Bool.not_eq_true] at hdata
        rw [hdata, ih]
        split
        case isTrue hpiece =>
            have htag : ¬(true = true ∧ p.tag = asn1Type) := by
              rintro ⟨-, htag⟩
              simp [Asn1Primitive.isData, hpiece.1, hpiece.2, htag] at hdata
            rw [if_neg fun h => Bool.noConfusion h.1, if_neg htag]
            rfl
        case isFalse => rfl

/-- Without it the search is for the object identifier first. -/
theorem searchItems_unmatched (hoid : oid ≠ []) : ∀ ps : List Asn1Primitive,
    searchItems oid asn1Type false (ps.map .primitive ++ rest)
      = match firstAfter (some oid) asn1Type ps with
        | some p => .ok (true, some (p.start, p.content.length), true)
        | none => searchItems oid asn1Type (ps.any (·.isOid oid)) rest
  | [] => rfl
  | p :: ps => by
      have ih := searchItems_unmatched hoid ps
      rw [List.map_cons, List.cons_append, searchItems_cons, firstAfter, List.dropWhile_cons,
        List.any_cons]
      by_cases hit : p.isOid oid = true
      · have hparts := hit
        simp only [Asn1Primitive.isOid, Bool.and_eq_true, decide_eq_true_eq] at hparts
        rw [hit, if_pos ⟨hparts.2.symm ▸ hoid, hparts.1.1⟩, if_pos ⟨rfl, hparts.1.2, hparts.2⟩,
          searchItems_matched]
        rfl
      · rw [Bool.not_eq_true] at hit
        rw [hit, Bool.not_false, if_pos rfl, Bool.false_or, ih]
        split
        case isTrue hpiece =>
            have hno : ¬(false = false ∧ p.tag = 0x06 ∧ p.content = oid) := by
              rintro ⟨-, htag, hcontent⟩
              simp [Asn1Primitive.isOid, hpiece.2, htag, hcontent] at hit
            rw [if_neg hno, if_neg fun h => Bool.noConfusion h.1]
            rfl
        case isFalse => rfl

end Search

/-- A cut-off header comes before what is looked for. -/
def CutOff (oid : Option (List UInt8)) (asn1Type : UInt8) (its : List Asn1Item) : Prop :=
  ∃ ps rest, its = ps.map .primitive ++ .cut :: rest ∧ firstAfter oid asn1Type ps = none

/-- The object identifier that `get_data_from_asn1` is given: none for a
missing or empty text. `none` if the text is not accepted. -/
def givenOid (malloc : ℕ → Option (List UInt8)) (oidStr : Option (List UInt8)) :
    Option (Option (List UInt8)) :=
  if (oidStr.getD []).headD Ascii.nul = Ascii.nul then some none
  else
    match oidFromStr malloc oidStr with
    | .ok (some (oid, oidLen)) => some (some (oid.take oidLen))
    | _ => none

/-! ## The result of a search -/

/-- Every list of items is primitive elements and what ends them. -/
theorem items_split : ∀ its : List Asn1Item, ∃ (ps : List Asn1Primitive)
    (rest : List Asn1Item), its = ps.map .primitive ++ rest ∧
      (rest = [] ∨ (∃ r, rest = .unsupported :: r) ∨ ∃ r, rest = .cut :: r)
  | [] => ⟨[], [], rfl, .inl rfl⟩
  | .unsupported :: its => ⟨[], _, rfl, .inr (.inl ⟨its, rfl⟩)⟩
  | .cut :: its => ⟨[], _, rfl, .inr (.inr ⟨its, rfl⟩)⟩
  | .primitive p :: its => by
      obtain ⟨ps, rest, rfl, hrest⟩ := items_split its
      exact ⟨p :: ps, rest, rfl, hrest⟩

section Found

variable {oid : Option (List UInt8)} {asn1Type : UInt8}

/-- A search of primitive elements and what follows them. -/
theorem searchItems_first (asn1Type : UInt8) (hoid : oid ≠ some []) (ps : List Asn1Primitive)
    (rest : List Asn1Item) :
    ∃ m, searchItems (oid.getD []) asn1Type oid.isNone (ps.map .primitive ++ rest)
      = match firstAfter oid asn1Type ps with
        | some p => .ok (true, some (p.start, p.content.length), true)
        | none => searchItems (oid.getD []) asn1Type m rest := by
  cases oid with
  | none => exact ⟨true, searchItems_matched ps⟩
  | some oid =>
      have hne : oid ≠ [] := fun h => hoid (congrArg some h)
      exact ⟨_, searchItems_unmatched hne ps⟩

/-- A search that does not come to a cut-off header ends, with nothing or with
one of the elements. -/
theorem searchItems_of_not_cutOff (hoid : oid ≠ some []) {its : List Asn1Item}
    (h : ¬CutOff oid asn1Type its) :
    ∃ r, searchItems (oid.getD []) asn1Type oid.isNone its = .ok r ∧
      ∀ start len, r.2.1 = some (start, len) →
        ∃ p, .primitive p ∈ its ∧ p.content ≠ [] ∧ start = p.start ∧
          len = p.content.length := by
  obtain ⟨ps, rest, rfl, hrest⟩ := items_split its
  obtain ⟨m, hsearch⟩ := searchItems_first asn1Type hoid ps rest
  cases hfirst : firstAfter oid asn1Type ps with
  | some p =>
      rw [hfirst] at hsearch
      have hp : p ∈ ps ∧ p.isData asn1Type = true := by
        cases oid with
        | none => exact ⟨List.mem_of_find?_eq_some hfirst, List.find?_some hfirst⟩
        | some oid =>
            have hmem := List.mem_of_mem_drop (List.mem_of_find?_eq_some hfirst)
            exact ⟨(List.dropWhile_sublist _).subset hmem, List.find?_some hfirst⟩
      refine ⟨_, hsearch, ?_⟩
      rintro start len ⟨⟩
      have hne : p.content ≠ [] := by
        have hdata := hp.2
        simp only [Asn1Primitive.isData, Bool.and_eq_true, decide_eq_true_eq] at hdata
        exact hdata.2
      exact ⟨p, List.mem_append_left _ (List.mem_map_of_mem hp.1), hne, rfl, rfl⟩
  | none =>
      rw [hfirst] at hsearch
      rcases hrest with rfl | ⟨r, rfl⟩ | ⟨r, rfl⟩
      · exact ⟨_, hsearch, nofun⟩
      · exact ⟨_, hsearch, nofun⟩
      · exact absurd ⟨ps, r, rfl, hfirst⟩ h

/-- A search that comes to one is at an end there. -/
theorem searchItems_of_cutOff (hoid : oid ≠ some []) {its : List Asn1Item}
    (h : CutOff oid asn1Type its) :
    searchItems (oid.getD []) asn1Type oid.isNone its = .error .outOfBounds := by
  obtain ⟨ps, rest, rfl, hfirst⟩ := h
  obtain ⟨m, hsearch⟩ := searchItems_first asn1Type hoid ps (.cut :: rest)
  rw [hfirst] at hsearch
  exact hsearch

end Found

/-- The contents of an item are in the bytes. -/
theorem asn1Items_inside : ∀ (fuel start : ℕ) (bs : List UInt8) (p : Asn1Primitive),
    .primitive p ∈ asn1Items fuel start bs → p.content ≠ [] →
      start ≤ p.start ∧ p.start + p.content.length ≤ start + bs.length ∧
      (bs.drop (p.start - start)).take p.content.length = p.content
  | 0, _, _, _, hp, _ => by cases hp
  | _ + 1, _, [], _, hp, _ => by cases hp
  | fuel + 1, start, b :: bs, p, hp, hne => by
      rw [asn1Items] at hp
      split at hp
      case isTrue => simp at hp
      case isFalse =>
        split at hp
        case h_1 => simp at hp
        case h_2 => simp at hp
        case h_3 size len _ =>
          dsimp only at hp
          split at hp
          case isTrue => simp at hp
          case isFalse hfits =>
            have hdrop : ∀ k, (b :: bs).drop (1 + size + k) = (bs.drop size).drop k := by
              intro k
              rw [List.drop_drop, Nat.add_assoc, Nat.add_comm 1, List.drop_succ_cons]
            rw [List.length_drop] at hfits
            rw [List.length_cons]
            rcases List.mem_append.mp hp with hin | hbehind
            · have hlen : ((bs.drop size).take len).length = len := by
                rw [List.length_take, List.length_drop]
                omega
              have hpos := List.length_pos_iff.mpr hne
              split at hin
              case isTrue =>
                obtain ⟨hle, hend, hslice⟩ := asn1Items_inside fuel _ _ p hin hne
                rw [hlen] at hend
                refine ⟨by omega, by omega, ?_⟩
                have hoff : p.start - start = 1 + size + (p.start - (start + 1 + size)) := by
                  omega
                rw [List.drop_take, List.take_take, min_eq_left (by omega)] at hslice
                rw [hoff, hdrop]
                exact hslice
              case isFalse =>
                obtain rfl : p = ⟨_, _, _, _⟩ := by
                  simpa using hin
                dsimp only at hpos ⊢
                rw [hlen] at hpos ⊢
                refine ⟨by omega, by omega, ?_⟩
                have hoff : start + 1 + size - start = 1 + size + 0 := by omega
                rw [hoff, hdrop, List.drop_zero]
            · obtain ⟨hle, hend, hslice⟩ := asn1Items_inside fuel _ _ p hbehind hne
              have hpos := List.length_pos_iff.mpr hne
              rw [List.length_drop, List.length_drop] at hend
              refine ⟨by omega, by omega, ?_⟩
              have hoff : p.start - start = 1 + size + (len + (p.start - (start + 1 + size + len))) := by
                omega
              rw [hoff, hdrop, ← List.drop_drop]
              exact hslice

/-! ## The whole search -/

section Given

variable {malloc : ℕ → Option (List UInt8)} {oidStr : Option (List UInt8)}

/-- `oid_from_str` returns, and an encoding has two octets or more. -/
theorem oidFromStr_returns (hmalloc : ∀ n block, malloc n = some block → block.length = n)
    (hnul : ∀ s, oidStr = some s → Ascii.nul ∉ s) :
    ∃ r, oidFromStr malloc oidStr = .ok r ∧
      ∀ oid oidLen, r = some (oid, oidLen) → 2 ≤ oidLen ∧ oidLen ≤ oid.length := by
  cases oidStr with
  | none => exact ⟨none, rfl, nofun⟩
  | some s =>
      cases hblock : malloc (1 + s.length + 2) with
      | none =>
          refine ⟨none, ?_, nofun⟩
          simp only [oidFromStr, hblock]
          split
          · rfl
          · rfl
      | some block =>
          rcases oidFromStr_cases (hnul s rfl) hblock (hmalloc _ _ hblock) with
            ⟨a, b, ns, oid, octets, -, -, -, hfill, -, hrun⟩ | ⟨-, hrun⟩
          · by_cases hrange : octets.length < 2 ∨ 254 < octets.length
            · rw [if_pos hrange] at hrun
              exact ⟨none, hrun, nofun⟩
            · rw [if_neg hrange] at hrun
              refine ⟨_, hrun, ?_⟩
              rintro _ _ ⟨⟩
              exact ⟨by omega, hfill.length_le⟩
          · exact ⟨none, hrun, nofun⟩

/-- What `get_data_from_asn1` does with the object identifier it is given. -/
theorem getDataFromAsn1_eq (hmalloc : ∀ n block, malloc n = some block → block.length = n)
    (hnul : ∀ s, oidStr = some s → Ascii.nul ∉ s) {buf : List UInt8}
    (hbuf : buf.length < 65536) (asn1Type : UInt8) :
    (givenOid malloc oidStr = none ∧ getDataFromAsn1 malloc buf oidStr asn1Type = .ok none) ∨
    ∃ oid, givenOid malloc oidStr = some oid ∧ oid ≠ some [] ∧
      getDataFromAsn1 malloc buf oidStr asn1Type
        = searchItems (oid.getD []) asn1Type oid.isNone (asn1Items (buf.length + 1) 0 buf)
            >>= fun r => .ok r.2.1 := by
  have hwalk : ∀ oid matched, asn1Walk oid asn1Type (buf.length + 1) buf 0 0 matched
      = searchItems oid asn1Type matched (asn1Items (buf.length + 1) 0 buf) := by
    intro oid matched
    have h := asn1Walk_eq oid asn1Type (buf.length + 1) buf 0 0 matched
      (by rw [List.drop_zero]; exact Nat.lt_succ_self _)
    rwa [List.drop_zero] at h
  have hsmall : ¬65536 ≤ buf.length := Nat.not_le.mpr hbuf
  rw [givenOid, getDataFromAsn1, if_neg hsmall]
  by_cases hempty : (oidStr.getD []).headD Ascii.nul = Ascii.nul
  · right
    refine ⟨none, if_pos hempty, nofun, ?_⟩
    simp only [hempty, decide_true, if_true, hwalk]
    rfl
  · simp only [hempty, decide_false, if_false, Bool.false_eq_true, hwalk]
    obtain ⟨r, hrun, hr⟩ := oidFromStr_returns hmalloc hnul
    rw [hrun]
    cases r with
    | none => exact .inl ⟨rfl, rfl⟩
    | some r =>
        obtain ⟨oid, oidLen⟩ := r
        obtain ⟨hmin, hmax⟩ := hr oid oidLen rfl
        refine .inr ⟨some (oid.take oidLen), rfl, ?_, ?_⟩
        · intro h
          have hlen := congrArg List.length (Option.some.inj h)
          rw [List.length_take, List.length_nil] at hlen
          omega
        · have hload : loadN oid 0 oidLen = .ok (oid.take oidLen) := by
            rw [loadN_of_le (by omega), List.drop_zero]
          rw [C.ok_bind]
          simp only [hload]
          rfl

end Given

/-- The walk over any bytes comes to an end, reads only inside of the element
it is in, and returns data that lies in the buffer, unless it comes to an
element whose header is cut off by the end of what it is in. -/
theorem getDataFromAsn1_inside_iff {malloc : ℕ → Option (List UInt8)}
    {oidStr : Option (List UInt8)} {buf : List UInt8}
    (hmalloc : ∀ n block, malloc n = some block → block.length = n)
    (hnul : ∀ s, oidStr = some s → Ascii.nul ∉ s) (hbuf : buf.length < 65536)
    (asn1Type : UInt8) :
    (∃ r, getDataFromAsn1 malloc buf oidStr asn1Type = .ok r ∧
      ∀ start len, r = some (start, len) → start + len ≤ buf.length) ↔
    ∀ oid, givenOid malloc oidStr = some oid →
      ¬CutOff oid asn1Type (asn1Items (buf.length + 1) 0 buf) := by
  rcases getDataFromAsn1_eq hmalloc hnul hbuf asn1Type with
    ⟨hnone, hrun⟩ | ⟨oid, hgiven, hoid, hrun⟩
  · rw [hnone, hrun]
    refine ⟨fun _ => nofun, fun _ => ⟨none, rfl, nofun⟩⟩
  · rw [hrun, hgiven]
    constructor
    · rintro ⟨r, hok, -⟩ oid' ⟨⟩ hcut
      rw [searchItems_of_cutOff hoid hcut] at hok
      cases hok
    · intro hcut
      obtain ⟨r, hsearch, hr⟩ := searchItems_of_not_cutOff hoid (hcut oid rfl)
      refine ⟨r.2.1, by rw [hsearch]; rfl, fun start len hdata => ?_⟩
      obtain ⟨p, hp, hne, rfl, rfl⟩ := hr start len hdata
      have hend := (asn1Items_inside _ 0 buf p hp hne).2.1
      omega

/-- A sequence of the object identifier `1.2.3` and one octet -/
def namedOctet : List UInt8 := [0x30, 7, 0x06, 2, 0x2a, 3, 0x04, 1, 7]

theorem getDataFromAsn1_inside_iff_namedOctet :
    ∃ r, getDataFromAsn1 (fun n => some (List.replicate n 0)) namedOctet
        (some (Ascii.text "1.2.3")) 0x04 = .ok r ∧
      ∀ start len, r = some (start, len) → start + len ≤ namedOctet.length := by
  have hmalloc : ∀ n block, some (List.replicate n (0 : UInt8)) = some block →
      block.length = n := by
    rintro n _ ⟨⟩
    exact List.length_replicate
  refine (getDataFromAsn1_inside_iff hmalloc ?_ (by decide) 0x04).mpr ?_
  · rintro s ⟨⟩
    decide
  rintro oid - ⟨ps, rest, hsplit, -⟩
  have hcut : Asn1Item.cut ∈ asn1Items (namedOctet.length + 1) 0 namedOctet :=
    hsplit ▸ List.mem_append_right _ List.mem_cons_self
  exact absurd hcut (by decide)

/-- A length octet that is not there is read all the same. -/
theorem getDataFromAsn1_reads_behind_end :
    ¬∃ r, getDataFromAsn1 (fun n => some (List.replicate n 0)) [0x30] none 0x04 = .ok r ∧
      ∀ start len, r = some (start, len) → start + len ≤ 1 := by
  have hrun : getDataFromAsn1 (fun n => some (List.replicate n 0)) [0x30] none 0x04
      = .error .outOfBounds := by decide
  rintro ⟨r, hok, -⟩
  rw [hrun] at hok
  cases hok

end Nawam
