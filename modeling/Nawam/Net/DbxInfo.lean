import Nawam.Base.Bytes

/-!
# The DBX table

`dbx_info`, `efi_archname` and the names made from them: the setting that
holds an architecture's marker and the file that caches its DBX. The refresh
in `net.c` writes the two, and the revocation check in `hash.c` reads them.
-/

namespace Nawam

open Ascii

/-- `efi_archname`, indexed by `enum ArchType`. -/
def efiArchname : List (List UInt8) :=
  [text "", text "ia32", text "x64", text "arm", text "aa64", text "ia64",
    text "riscv64", text "loongarch64", text "ebc"]

structure DbxInfo where
  url : List UInt8
  timestamp : ℕ
deriving DecidableEq, Repr

/-- The repository folder the embedded DBX files come from. -/
def dbxFolder : List UInt8 :=
  text "https://api.github.com/repos/microsoft/secureboot_objects/" ++
    text "contents/PostSignedObjects/SignedByKEK2023/"

/-- `dbx_info`: entry `i` is about architecture `i + 1`. -/
def dbxInfo : List DbxInfo :=
  [⟨dbxFolder ++ text "dbx_ia32.efiauth2", 1788300339⟩,
    ⟨dbxFolder ++ text "dbx_x64.efiauth2", 1788300339⟩,
    ⟨dbxFolder ++ text "dbx_arm.efiauth2", 1788300339⟩,
    ⟨dbxFolder ++ text "dbx_aarch64.efiauth2", 1788300339⟩,
    ⟨dbxFolder ++ text "dbx_ia64.efiauth2", 0⟩,
    ⟨dbxFolder ++ text "dbx_riscv64.efiauth2", 0⟩,
    ⟨dbxFolder ++ text "dbx_loongarch64.efiauth2", 0⟩]

/-- `"DBXTimestamp_%s"`: the name of the setting of an architecture. -/
def dbxKey (archname : List UInt8) : List UInt8 :=
  text "DBXTimestamp_" ++ archname

/-- `"dbx_%s.bin"` -/
def dbxName (archname : List UInt8) : List UInt8 :=
  text "dbx_" ++ (archname ++ text ".bin")

def filesDir : List UInt8 := text "Nawam"

/-- `"%s\\%s\\%s"`: the cache file, before any truncation. -/
def dbxPath (appDataDir archname : List UInt8) : List UInt8 :=
  appDataDir ++ (text "\\" ++ (filesDir ++ (text "\\" ++ dbxName archname)))

abbrev maxPath : ℕ := 260

/-- `(uint64_t)v` for an `int64_t` -/
def toUint64 (v : ℤ) : ℕ := (v % 2 ^ 64).toNat

/-- `UseLocalDbx`, given the settings. `dbx_info` has no entry for the last
architecture of `efi_archname`, nor one for `ARCH_UNKNOWN`. -/
def useLocalDbx (readSetting64 : List UInt8 → ℤ) (arch : ℕ) : C Bool := do
  let archname ← entry efiArchname arch
  let info ← if arch = 0 then .error .outOfBounds else entry dbxInfo (arch - 1)
  return info.timestamp < toUint64 (readSetting64 (dbxKey archname))

theorem dbxKey_injective : Function.Injective dbxKey :=
  fun _ _ h => List.append_cancel_left h

theorem dbxPath_injective (appDataDir : List UInt8) :
    Function.Injective (dbxPath appDataDir) := by
  intro a b h
  have hname := List.append_cancel_left (List.append_cancel_left
    (List.append_cancel_left (List.append_cancel_left h)))
  exact List.append_cancel_right (List.append_cancel_left hname)

end Nawam
