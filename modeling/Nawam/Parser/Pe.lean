import Nawam.Base.Bytes

/-!
# The PE accessors

`GetPeArch` and `GetPeSection` of `parser.c`, and `MachineToArch` of
`rufus.c`, over the bytes of the image. The structures are the overlays of
`winnt.h`; every field is read at its offset, and an offset outside the image
is a fault, since none of these functions is given the image's length.
-/

namespace Nawam

/-- `enum ArchType`; `unknown` is `ARCH_UNKNOWN`. -/
inductive ArchType where
  | unknown
  | x86_32
  | x86_64
  | arm_32
  | arm_64
  | ia_64
  | riscv_64
  | loongarch_64
  | ebc
deriving DecidableEq, Repr

/-- The enumeration's numbering, which indexes `efi_archname`. -/
def ArchType.index : ArchType → ℕ
  | .unknown => 0
  | .x86_32 => 1
  | .x86_64 => 2
  | .arm_32 => 3
  | .arm_64 => 4
  | .ia_64 => 5
  | .riscv_64 => 6
  | .loongarch_64 => 7
  | .ebc => 8

abbrev imageFileMachineUnknown : ℕ := 0
abbrev imageFileMachineI386 : ℕ := 0x014c
abbrev imageFileMachineArm : ℕ := 0x01c0

def machineToArch (machine : ℕ) : ArchType :=
  if machine = 0x014c then .x86_32
  else if machine = 0x8664 then .x86_64
  else if machine = 0x01c0 then .arm_32
  else if machine = 0xaa64 then .arm_64
  else if machine = 0x0200 then .ia_64
  else if machine = 0x5064 then .riscv_64
  else if machine = 0x6264 then .loongarch_64
  else if machine = 0x0ebc then .ebc
  else .unknown

/-- The offset of the NT headers: `none` when one of the two signatures is
not there. `e_lfanew` is a signed field, and a negative one is an address in
front of the image. -/
def ntHeaders (buf : List UInt8) : C (Option ℕ) := do
  let magic ← loadLE buf 0 2
  if magic ≠ 0x5a4d then return none
  else
    let lfanew ← loadLE buf 0x3c 4
    if 2 ^ 31 ≤ lfanew then .error .outOfBounds
    else
      let signature ← loadLE buf lfanew 4
      if signature ≠ 0x00004550 then return none else return some lfanew

def getPeArch (buf : List UInt8) : C ℕ := do
  match ← ntHeaders buf with
  | none => return imageFileMachineUnknown
  | some pe => loadLE buf (pe + 4) 2

def sectionName (name : List UInt8) : List UInt8 :=
  (name.take 7 ++ List.replicate 8 0).take 8

/-- The section loop: `n` headers are left, the next one is number `i` of the
table at offset `table`. The length returned is the one of the first header
of the table. -/
def sectionLoop (buf : List UInt8) (table : ℕ) (name : List UInt8) :
    ℕ → ℕ → C (Option (ℕ × ℕ))
  | 0, _ => return none
  | n + 1, i => do
      let header ← loadN buf (table + 40 * i) 8
      if header = sectionName name then
        let len ← loadLE buf (table + 16) 4
        let raw ← loadLE buf (table + 40 * i + 20) 4
        return some (raw, len)
      else sectionLoop buf table name n (i + 1)

/-- `GetPeSection`: the offset of the section's data in the image, and the
length stored in `*len`. -/
def getPeSection (buf name : List UInt8) : C (Option (ℕ × ℕ)) := do
  match ← ntHeaders buf with
  | none => return none
  | some pe =>
      let machine ← loadLE buf (pe + 4) 2
      let headers := if machine = imageFileMachineI386 ∨
        machine = imageFileMachineArm then 248 else 264
      let nbSections ← loadLE buf (pe + 6) 2
      sectionLoop buf (pe + headers) name nbSections 0

end Nawam
