import Nawam.Parser.Pe

/-!
# The data directories of a PE image

`GetPeSignatureData`, `RvaToPhysical` and `FindResourceRva` of `parser.c`. All
three follow offsets that stand in the image, and as none of them is given its
length, an offset outside of it is a fault.
-/

namespace Nawam

/-- The offset of entry `index` of `DataDirectory` behind the NT headers, and of
the section headers: the optional header is that of 32 bits for two machines. -/
def dataDirectory (machine index : ℕ) : ℕ :=
  (if machine = imageFileMachineI386 ∨ machine = imageFileMachineArm then 24 + 96
    else 24 + 112) + 8 * index

def sectionHeaders (machine : ℕ) : ℕ :=
  if machine = imageFileMachineI386 ∨ machine = imageFileMachineArm then 248 else 264

/-- `GetPeSignatureData`: the offset of the certificate. -/
def getPeSignatureData (buf : List UInt8) : C (Option ℕ) := do
  match ← ntHeaders buf with
  | none => return none
  | some pe =>
      let machine ← loadLE buf (pe + 4) 2
      -- IMAGE_DIRECTORY_ENTRY_SECURITY
      let virtualAddress ← loadLE buf (pe + dataDirectory machine 4) 4
      let size ← loadLE buf (pe + dataDirectory machine 4 + 4) 4
      if virtualAddress = 0 ∨ size = 0 then return none
      else
        let dwLength ← loadLE buf virtualAddress 4
        if dwLength = 0 then return none
        else
          let certificateType ← loadLE buf (virtualAddress + 6) 2
          -- WIN_CERT_TYPE_PKCS_SIGNED_DATA
          if certificateType ≠ 2 then return none else return some virtualAddress

/-- The section loop of `RvaToPhysical`, with the sum and the difference of
32-bit words. -/
def rvaLoop (buf : List UInt8) (table rva : ℕ) : ℕ → ℕ → C (Option ℕ)
  | 0, _ => return none
  | n + 1, i => do
      let virtualAddress ← loadLE buf (table + 40 * i + 12) 4
      if virtualAddress ≤ rva then
        let virtualSize ← loadLE buf (table + 40 * i + 8) 4
        if rva < (virtualAddress + virtualSize) % 2 ^ 32 then
          let raw ← loadLE buf (table + 40 * i + 20) 4
          return some ((raw + (rva - virtualAddress)) % 2 ^ 32)
        else rvaLoop buf table rva n (i + 1)
      else rvaLoop buf table rva n (i + 1)

def rvaToPhysical (buf : List UInt8) (rva : ℕ) : C (Option ℕ) := do
  match ← ntHeaders buf with
  | none => return none
  | some pe =>
      let machine ← loadLE buf (pe + 4) 2
      let nbSections ← loadLE buf (pe + 6) 2
      rvaLoop buf (pe + sectionHeaders machine) rva nbSections 0

/-- What `FindResourceRva` comes back with: the address, 0 for none, the length
and `FoundResourceRva`. -/
structure ResourceRva where
  rva : ℕ
  len : ℕ
  found : Bool
deriving DecidableEq, Repr

def utf16Bytes (name : List UInt16) : List UInt8 :=
  name.flatMap fun c : UInt16 => [c.toUInt8, (c >>> 8).toUInt8]

/-- A named entry is that of the resource. The comparison is of as many bytes as
the name has characters. -/
def entryNamed (buf : List UInt8) (name : List UInt16) (root entry : ℕ) :
    C Bool := do
  let nameOffset ← loadLE buf entry 4
  let string := root + nameOffset % 2 ^ 31
  let length ← loadLE buf string 2
  if length ≠ name.length then return false
  else
    let chars ← loadN buf (string + 2) name.length
    return chars = (utf16Bytes name).take name.length

/-- An entry that is not passed over: a directory, by the call `sub`, or the
resource once its name has been found. `next` are the entries behind it. -/
def followEntry (buf : List UInt8) (root entry : ℕ) (sub : ℕ → Bool → C ResourceRva)
    (next : Bool → C ResourceRva) (found : Bool) : C ResourceRva := do
  let offset ← loadLE buf (entry + 4) 4
  if 2 ^ 31 ≤ offset then
    let r ← sub (root + offset % 2 ^ 31) found
    if r.rva ≠ 0 then return r else next r.found
  else if found then
    let size ← loadLE buf (root + offset + 4) 4
    let rva ← loadLE buf (root + offset) 4
    return ⟨rva, size, found⟩
  else next found

/-- The loop of `FindResourceRva` over the entries of a directory, `n` of them
left. -/
def resourceLoop (buf : List UInt8) (name : List UInt16) (root dir named : ℕ)
    (sub : ℕ → Bool → C ResourceRva) : ℕ → ℕ → Bool → C ResourceRva
  | 0, _, found => return ⟨0, 0, found⟩
  | n + 1, i, found => do
      let entry := dir + 16 + 8 * i
      let next := resourceLoop buf name root dir named sub n (i + 1)
      if !found && i < named then
        if ← entryNamed buf name root entry then
          followEntry buf root entry sub next true
        else next found
      else followEntry buf root entry sub next found

/-- `FindResourceRva`, for calls that are nested `fuel` deep. -/
def findResourceRva (buf : List UInt8) (name : List UInt16) (root : ℕ) :
    ℕ → ℕ → Bool → C ResourceRva
  | 0, _, _ => .error .outOfFuel
  | fuel + 1, dir, found => do
      let named ← loadLE buf (dir + 12) 2
      let ids ← loadLE buf (dir + 14) 2
      resourceLoop buf name root dir named (findResourceRva buf name root fuel)
        (named + ids) 0 (if dir = root then false else found)

end Nawam
