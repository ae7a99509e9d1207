import Nawam.Base.Index
import Nawam.Parser.Asn1

/-!
# The walk over DER

What signature data is: a sequence of elements, each with an identifier octet,
its length in the fewest octets, and its contents, which for a constructed
element are elements again. `asn1Items_encodeAll` says that the items of an
encoding are the primitive elements in pre-order, and so the walk finds what
comes first among them.
-/

namespace Nawam

/-- A class and a low tag number that are not those of NULL. -/
structure DerIdent where
  cls : Fin 4
  tag : Fin 31
  notNull : ¬(cls = 0 ∧ tag = 5)

inductive Der where
  | null
  | primitive (id : DerIdent) (content : List UInt8)
  | constructed (id : DerIdent) (elements : List Der)

def identOctet (cls : Fin 4) (isConstructed : Bool) (tag : Fin 31) : UInt8 :=
  UInt8.ofNat (64 * cls.val + (if isConstructed then 32 else 0) + tag.val)

/-- The length octets, for lengths below 65536. -/
def lengthOctets (n : ℕ) : List UInt8 :=
  if n < 128 then [UInt8.ofNat n]
  else if n < 256 then [0x81, UInt8.ofNat n]
  else [0x82, UInt8.ofNat (n / 256), UInt8.ofNat (n % 256)]

mutual

def Der.encode : Der → List UInt8
  | .null => [0x05, 0]
  | .primitive id content =>
      identOctet id.cls false id.tag :: (lengthOctets content.length ++ content)
  | .constructed id elements =>
      identOctet id.cls true id.tag ::
        (lengthOctets (encodeAll elements).length ++ encodeAll elements)

def encodeAll : List Der → List UInt8
  | [] => []
  | d :: ds => d.encode ++ encodeAll ds

end

mutual

/-- The primitive elements in pre-order, of an element at offset `start`. -/
def Der.primitives (start : ℕ) : Der → List Asn1Primitive
  | .null => [⟨true, 0x05, start + 2, []⟩]
  | .primitive id content =>
      [⟨id.cls = 0, UInt8.ofNat id.tag, start + 1 + (lengthOctets content.length).length,
        content⟩]
  | .constructed _ elements =>
      primitivesAll (start + 1 + (lengthOctets (encodeAll elements).length).length) elements

/-- The primitive elements of a sequence in pre-order. -/
def primitivesAll (start : ℕ) : List Der → List Asn1Primitive
  | [] => []
  | d :: ds => d.primitives start ++ primitivesAll (start + d.encode.length) ds

end

/-- What the walk reads off an identifier octet. -/
theorem identOctet_fields : ∀ (cls : Fin 4) (isConstructed : Bool) (tag : Fin 31),
    identOctet cls isConstructed tag &&& 0x1F = UInt8.ofNat tag ∧
    decide (identOctet cls isConstructed tag &&& 0xC0 = 0) = decide (cls = 0) ∧
    (identOctet cls isConstructed tag &&& 0x20 ≠ 0 ↔ isConstructed = true) := by
  decide

theorem lengthOctet_short : ∀ n : Fin 128,
    UInt8.ofNat n.val &&& 0x80 = 0 ∧ (UInt8.ofNat n.val).toNat = n.val := by
  decide

theorem lengthField_lengthOctets {n : ℕ} (h : n < 65536) (rest : List UInt8) :
    lengthField (lengthOctets n ++ rest) = .octets (lengthOctets n).length n := by
  rw [lengthOctets]
  split
  case isTrue hshort =>
      obtain ⟨hbit, hval⟩ := lengthOctet_short ⟨n, hshort⟩
      rw [List.singleton_append, lengthField.eq_def]
      dsimp only
      rw [if_pos hbit, hval]
      rfl
  case isFalse hlong =>
      split
      case isTrue hone =>
          have hval : (UInt8.ofNat n).toNat = n := by
            rw [UInt8.toNat_ofNat', Nat.mod_eq_of_lt hone]
          have hbit : ¬(0x81 : UInt8) &&& 0x80 = 0 := by decide
          have hmore : ((0x81 : UInt8) &&& 0x7F).toNat = 1 := rfl
          rw [List.cons_append, lengthField.eq_def]
          dsimp only
          rw [if_neg hbit, hmore]
          simp [hval]
      case isFalse htwo =>
          have hhigh : (UInt8.ofNat (n / 256)).toNat = n / 256 := by
            rw [UInt8.toNat_ofNat']
            omega
          have hlow : (UInt8.ofNat (n % 256)).toNat = n % 256 := by
            rw [UInt8.toNat_ofNat']
            omega
          have hval : 256 * (n / 256) + n % 256 = n := Nat.div_add_mod n 256
          have hbit : ¬(0x82 : UInt8) &&& 0x80 = 0 := by decide
          have hmore : ((0x82 : UInt8) &&& 0x7F).toNat = 2 := rfl
          rw [List.cons_append, lengthField.eq_def]
          dsimp only
          rw [if_neg hbit, hmore]
          simp [hhigh, hlow, hval]

/-- An element at the front of some bytes is its own items, or its contents'. -/
theorem asn1Items_element {id : DerIdent} {isConstructed : Bool} {content rest : List UInt8}
    (h : content.length < 65536) (fuel start : ℕ) :
    asn1Items (fuel + 1) start (identOctet id.cls isConstructed id.tag ::
        (lengthOctets content.length ++ content) ++ rest)
      = (if isConstructed then
            asn1Items fuel (start + 1 + (lengthOctets content.length).length) content
          else [.primitive ⟨id.cls = 0, UInt8.ofNat id.tag,
            start + 1 + (lengthOctets content.length).length, content⟩])
        ++ asn1Items fuel
            (start + 1 + (lengthOctets content.length).length + content.length) rest := by
  obtain ⟨htag, hclass, hbit⟩ := identOctet_fields id.cls isConstructed id.tag
  have hlow : UInt8.ofNat id.tag.val ≠ 0x1F := by
    have hall : ∀ t : Fin 31, UInt8.ofNat t.val ≠ 0x1F := by decide
    exact hall id.tag
  have hnull : ¬(decide (id.cls = 0) = true ∧ UInt8.ofNat id.tag.val = 0x05) := by
    have hall : ∀ t : Fin 31, UInt8.ofNat t.val = 0x05 → t = 5 := by decide
    rintro ⟨hcls, hfive⟩
    exact id.notNull ⟨of_decide_eq_true hcls, hall id.tag hfive⟩
  rw [List.cons_append, List.append_assoc, asn1Items]
  simp only [htag, hclass]
  rw [if_neg hlow, if_neg hnull, lengthField_lengthOctets h]
  dsimp only
  have hfits : ¬(content ++ rest).length < content.length := by
    rw [List.length_append]
    omega
  rw [List.drop_left, if_neg hfits, List.take_left, List.drop_left]
  cases isConstructed with
  | true => rw [if_pos (hbit.mpr rfl), if_pos rfl]
  | false => rw [if_neg fun hb => Bool.noConfusion (hbit.mp hb), if_neg Bool.false_ne_true]

theorem Der.encode_pos (d : Der) : 2 ≤ d.encode.length := by
  have hlen : ∀ n, 1 ≤ (lengthOctets n).length := by
    intro n
    rw [lengthOctets]
    split
    · exact le_rfl
    · split
      · exact Nat.le_succ 1
      · exact Nat.le_add_left 1 2
  cases d with
  | null => exact le_rfl
  | primitive id content =>
      have := hlen content.length
      rw [Der.encode, List.length_cons, List.length_append]
      omega
  | constructed id elements =>
      have := hlen (encodeAll elements).length
      rw [Der.encode, List.length_cons, List.length_append]
      omega

mutual

/-- The items of an element and what follows it. -/
theorem asn1Items_encode : ∀ (d : Der) (fuel start : ℕ) (rest : List UInt8),
    d.encode.length < 65536 → d.encode.length ≤ fuel →
    asn1Items (fuel + 1) start (d.encode ++ rest)
      = (d.primitives start).map .primitive
        ++ asn1Items fuel (start + d.encode.length) rest
  | .null, fuel, start, rest, _, _ => rfl
  | .primitive id content, fuel, start, rest, hsize, hfuel => by
      rw [Der.encode, List.length_cons, List.length_append] at hsize
      rw [Der.encode, asn1Items_element (by omega), List.length_cons, List.length_append,
        Der.primitives]
      simp only [Nat.add_assoc, Nat.add_comm 1]
      rfl
  | .constructed id elements, fuel, start, rest, hsize, hfuel => by
      rw [Der.encode, List.length_cons, List.length_append] at hsize hfuel
      have hinner := asn1Items_encodeAll elements fuel
        (start + 1 + (lengthOctets (encodeAll elements).length).length) (by omega) (by omega)
      rw [Der.encode, asn1Items_element (by omega), List.length_cons, List.length_append,
        Der.primitives, if_pos rfl, hinner]
      simp only [Nat.add_assoc, Nat.add_comm 1]

/-- The items of a sequence of elements are its primitive elements. -/
theorem asn1Items_encodeAll : ∀ (ds : List Der) (fuel start : ℕ),
    (encodeAll ds).length < 65536 → (encodeAll ds).length < fuel →
    asn1Items fuel start (encodeAll ds) = (primitivesAll start ds).map .primitive
  | [], fuel + 1, start, _, _ => rfl
  | d :: ds, fuel + 1, start, hsize, hfuel => by
      rw [encodeAll, List.length_append] at hsize hfuel
      have hd := d.encode_pos
      rw [encodeAll, asn1Items_encode d fuel start _ (by omega) (by omega),
        asn1Items_encodeAll ds fuel _ (by omega) (by omega), primitivesAll, List.map_append]

end

end Nawam
