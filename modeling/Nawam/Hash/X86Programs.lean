import Nawam.Base.Index
import Nawam.Hash.Intrinsics
import Nawam.Hash.Streaming

/-!
# The accelerated transforms

`sha1_transform_x86` and `sha256_transform_x86` of `hash.c`. What they do to a
block is a program of vector intrinsics, line by line as in the source; around
it they pack the words of the state into vectors and unpack them again.
-/

namespace Nawam

/-- `(uint32_t)state64[i]` -/
def packed (state64 : List UInt64) (i : ℕ) : BitVec 32 :=
  (state64.getD i 0).toUInt32.toBitVec

/-- `state64[i] = state[i]` for the words that there are. -/
def repack (state64 : List UInt64) (state : List (BitVec 32)) : List UInt64 :=
  state.map (fun word => (UInt32.ofBitVec word).toUInt64) ++ state64.drop state.length

/-! ## SHA-1 -/

inductive Sha1Reg where
  | ABCD
  | E (i : Fin 2)
  | MSG (i : Fin 4)
  | ABCD_SAVE
  | E0_SAVE
deriving DecidableEq

/-- `MASK` of `sha1_transform_x86` -/
def sha1Mask : M128i := setEpi64x 0x0001020304050607 0x08090a0b0c0d0e0f

def sha1Program : List (Line Sha1Reg) :=
  [ -- Save current state
   .move .ABCD_SAVE .ABCD, .move .E0_SAVE (.E 0),
   -- Rounds 0-3
   .loadu (.MSG 0) 0, .shuffle8 (.MSG 0) (.MSG 0), .add (.E 0) (.E 0) (.MSG 0),
   .move (.E 1) .ABCD, .sha1rnds4 .ABCD .ABCD (.E 0) 0,
   -- Rounds 4-7
   .loadu (.MSG 1) 16, .shuffle8 (.MSG 1) (.MSG 1),
   .sha1nexte (.E 1) (.E 1) (.MSG 1), .move (.E 0) .ABCD,
   .sha1rnds4 .ABCD .ABCD (.E 1) 0, .sha1msg1 (.MSG 0) (.MSG 0) (.MSG 1),
   -- Rounds 8-11
   .loadu (.MSG 2) 32, .shuffle8 (.MSG 2) (.MSG 2),
   .sha1nexte (.E 0) (.E 0) (.MSG 2), .move (.E 1) .ABCD,
   .sha1rnds4 .ABCD .ABCD (.E 0) 0, .sha1msg1 (.MSG 1) (.MSG 1) (.MSG 2),
   .xor (.MSG 0) (.MSG 0) (.MSG 2),
   -- Rounds 12-15
   .loadu (.MSG 3) 48, .shuffle8 (.MSG 3) (.MSG 3),
   .sha1nexte (.E 1) (.E 1) (.MSG 3), .move (.E 0) .ABCD,
   .sha1msg2 (.MSG 0) (.MSG 0) (.MSG 3), .sha1rnds4 .ABCD .ABCD (.E 1) 0,
   .sha1msg1 (.MSG 2) (.MSG 2) (.MSG 3), .xor (.MSG 1) (.MSG 1) (.MSG 3),
   -- Rounds 16-19
   .sha1nexte (.E 0) (.E 0) (.MSG 0), .move (.E 1) .ABCD,
   .sha1msg2 (.MSG 1) (.MSG 1) (.MSG 0), .sha1rnds4 .ABCD .ABCD (.E 0) 0,
   .sha1msg1 (.MSG 3) (.MSG 3) (.MSG 0), .xor (.MSG 2) (.MSG 2) (.MSG 0),
   -- Rounds 20-23
   .sha1nexte (.E 1) (.E 1) (.MSG 1), .move (.E 0) .ABCD,
   .sha1msg2 (.MSG 2) (.MSG 2) (.MSG 1), .sha1rnds4 .ABCD .ABCD (.E 1) 1,
   .sha1msg1 (.MSG 0) (.MSG 0) (.MSG 1), .xor (.MSG 3) (.MSG 3) (.MSG 1),
   -- Rounds 24-27
   .sha1nexte (.E 0) (.E 0) (.MSG 2), .move (.E 1) .ABCD,
   .sha1msg2 (.MSG 3) (.MSG 3) (.MSG 2), .sha1rnds4 .ABCD .ABCD (.E 0) 1,
   .sha1msg1 (.MSG 1) (.MSG 1) (.MSG 2), .xor (.MSG 0) (.MSG 0) (.MSG 2),
   -- Rounds 28-31
   .sha1nexte (.E 1) (.E 1) (.MSG 3), .move (.E 0) .ABCD,
   .sha1msg2 (.MSG 0) (.MSG 0) (.MSG 3), .sha1rnds4 .ABCD .ABCD (.E 1) 1,
   .sha1msg1 (.MSG 2) (.MSG 2) (.MSG 3), .xor (.MSG 1) (.MSG 1) (.MSG 3),
   -- Rounds 32-35
   .sha1nexte (.E 0) (.E 0) (.MSG 0), .move (.E 1) .ABCD,
   .sha1msg2 (.MSG 1) (.MSG 1) (.MSG 0), .sha1rnds4 .ABCD .ABCD (.E 0) 1,
   .sha1msg1 (.MSG 3) (.MSG 3) (.MSG 0), .xor (.MSG 2) (.MSG 2) (.MSG 0),
   -- Rounds 36-39
   .sha1nexte (.E 1) (.E 1) (.MSG 1), .move (.E 0) .ABCD,
   .sha1msg2 (.MSG 2) (.MSG 2) (.MSG 1), .sha1rnds4 .ABCD .ABCD (.E 1) 1,
   .sha1msg1 (.MSG 0) (.MSG 0) (.MSG 1), .xor (.MSG 3) (.MSG 3) (.MSG 1),
   -- Rounds 40-43
   .sha1nexte (.E 0) (.E 0) (.MSG 2), .move (.E 1) .ABCD,
   .sha1msg2 (.MSG 3) (.MSG 3) (.MSG 2), .sha1rnds4 .ABCD .ABCD (.E 0) 2,
   .sha1msg1 (.MSG 1) (.MSG 1) (.MSG 2), .xor (.MSG 0) (.MSG 0) (.MSG 2),
   -- Rounds 44-47
   .sha1nexte (.E 1) (.E 1) (.MSG 3), .move (.E 0) .ABCD,
   .sha1msg2 (.MSG 0) (.MSG 0) (.MSG 3), .sha1rnds4 .ABCD .ABCD (.E 1) 2,
   .sha1msg1 (.MSG 2) (.MSG 2) (.MSG 3), .xor (.MSG 1) (.MSG 1) (.MSG 3),
   -- Rounds 48-51
   .sha1nexte (.E 0) (.E 0) (.MSG 0), .move (.E 1) .ABCD,
   .sha1msg2 (.MSG 1) (.MSG 1) (.MSG 0), .sha1rnds4 .ABCD .ABCD (.E 0) 2,
   .sha1msg1 (.MSG 3) (.MSG 3) (.MSG 0), .xor (.MSG 2) (.MSG 2) (.MSG 0),
   -- Rounds 52-55
   .sha1nexte (.E 1) (.E 1) (.MSG 1), .move (.E 0) .ABCD,
   .sha1msg2 (.MSG 2) (.MSG 2) (.MSG 1), .sha1rnds4 .ABCD .ABCD (.E 1) 2,
   .sha1msg1 (.MSG 0) (.MSG 0) (.MSG 1), .xor (.MSG 3) (.MSG 3) (.MSG 1),
   -- Rounds 56-59
   .sha1nexte (.E 0) (.E 0) (.MSG 2), .move (.E 1) .ABCD,
   .sha1msg2 (.MSG 3) (.MSG 3) (.MSG 2), .sha1rnds4 .ABCD .ABCD (.E 0) 2,
   .sha1msg1 (.MSG 1) (.MSG 1) (.MSG 2), .xor (.MSG 0) (.MSG 0) (.MSG 2),
   -- Rounds 60-63
   .sha1nexte (.E 1) (.E 1) (.MSG 3), .move (.E 0) .ABCD,
   .sha1msg2 (.MSG 0) (.MSG 0) (.MSG 3), .sha1rnds4 .ABCD .ABCD (.E 1) 3,
   .sha1msg1 (.MSG 2) (.MSG 2) (.MSG 3), .xor (.MSG 1) (.MSG 1) (.MSG 3),
   -- Rounds 64-67
   .sha1nexte (.E 0) (.E 0) (.MSG 0), .move (.E 1) .ABCD,
   .sha1msg2 (.MSG 1) (.MSG 1) (.MSG 0), .sha1rnds4 .ABCD .ABCD (.E 0) 3,
   .sha1msg1 (.MSG 3) (.MSG 3) (.MSG 0), .xor (.MSG 2) (.MSG 2) (.MSG 0),
   -- Rounds 68-71
   .sha1nexte (.E 1) (.E 1) (.MSG 1), .move (.E 0) .ABCD,
   .sha1msg2 (.MSG 2) (.MSG 2) (.MSG 1), .sha1rnds4 .ABCD .ABCD (.E 1) 3,
   .xor (.MSG 3) (.MSG 3) (.MSG 1),
   -- Rounds 72-75
   .sha1nexte (.E 0) (.E 0) (.MSG 2), .move (.E 1) .ABCD,
   .sha1msg2 (.MSG 3) (.MSG 3) (.MSG 2), .sha1rnds4 .ABCD .ABCD (.E 0) 3,
   -- Rounds 76-79
   .sha1nexte (.E 1) (.E 1) (.MSG 3), .move (.E 0) .ABCD,
   .sha1rnds4 .ABCD .ABCD (.E 1) 3,
   -- Combine state
   .sha1nexte (.E 0) (.E 0) .E0_SAVE, .add .ABCD .ABCD .ABCD_SAVE]

/-- `sha1_transform_x86`; what is in the registers before they are assigned to
is `r`. -/
def sha1TransformX86 (r : Sha1Reg → M128i) (state64 : List UInt64)
    (data : List UInt8) : List UInt64 :=
  let ABCD : M128i :=
    ⟨packed state64 0, packed state64 1, packed state64 2, packed state64 3⟩
  let E0 := setEpi32 (packed state64 4) 0 0 0
  let ABCD := shuffleEpi32 ABCD 0x1B
  let r := Function.update (Function.update r .ABCD ABCD) (.E 0) E0
  let r := absorb 64 (fun r block => runProgram sha1Mask sha1Program block r) r data
  let ABCD := shuffleEpi32 (r .ABCD) 0x1B
  repack state64 [ABCD.d0, ABCD.d1, ABCD.d2, ABCD.d3, extractEpi32 (r (.E 0)) 3]

/-! ## SHA-256 -/

inductive Sha256Reg where
  | STATE0
  | STATE1
  | MSG
  | TMP
  | MSGn (i : Fin 4)
  | ABEF_SAVE
  | CDGH_SAVE
deriving DecidableEq

/-- `MASK` of `sha256_transform_x86` -/
def sha256Mask : M128i := setEpi64x 0x0c0d0e0f08090a0b 0x0405060700010203

/-- The body of the loop of `sha256_transform_x86`, with `MSGn i` for `MSG0` to
`MSG3` -/
def sha256Program : List (Line Sha256Reg) :=
  [ -- Save current state
   .move .ABEF_SAVE .STATE0, .move .CDGH_SAVE .STATE1,
   -- Rounds 0-3
   .loadu .MSG 0, .shuffle8 (.MSGn 0) .MSG,
   .addSet .MSG (.MSGn 0) 0xE9B5DBA5B5C0FBCF 0x71374491428A2F98,
   .sha256rnds2 .STATE1 .STATE1 .STATE0 .MSG, .shuffle32 .MSG .MSG 0x0E,
   .sha256rnds2 .STATE0 .STATE0 .STATE1 .MSG,
   -- Rounds 4-7
   .loadu (.MSGn 1) 16, .shuffle8 (.MSGn 1) (.MSGn 1),
   .addSet .MSG (.MSGn 1) 0xAB1C5ED5923F82A4 0x59F111F13956C25B,
   .sha256rnds2 .STATE1 .STATE1 .STATE0 .MSG, .shuffle32 .MSG .MSG 0x0E,
   .sha256rnds2 .STATE0 .STATE0 .STATE1 .MSG,
   .sha256msg1 (.MSGn 0) (.MSGn 0) (.MSGn 1),
   -- Rounds 8-11
   .loadu (.MSGn 2) 32, .shuffle8 (.MSGn 2) (.MSGn 2),
   .addSet .MSG (.MSGn 2) 0x550C7DC3243185BE 0x12835B01D807AA98,
   .sha256rnds2 .STATE1 .STATE1 .STATE0 .MSG, .shuffle32 .MSG .MSG 0x0E,
   .sha256rnds2 .STATE0 .STATE0 .STATE1 .MSG,
   .sha256msg1 (.MSGn 1) (.MSGn 1) (.MSGn 2),
   -- Rounds 12-15
   .loadu (.MSGn 3) 48, .shuffle8 (.MSGn 3) (.MSGn 3),
   .addSet .MSG (.MSGn 3) 0xC19BF1749BDC06A7 0x80DEB1FE72BE5D74,
   .sha256rnds2 .STATE1 .STATE1 .STATE0 .MSG, .alignr .TMP (.MSGn 3) (.MSGn 2) 4,
   .add (.MSGn 0) (.MSGn 0) .TMP, .sha256msg2 (.MSGn 0) (.MSGn 0) (.MSGn 3),
   .shuffle32 .MSG .MSG 0x0E, .sha256rnds2 .STATE0 .STATE0 .STATE1 .MSG,
   .sha256msg1 (.MSGn 2) (.MSGn 2) (.MSGn 3),
   -- Rounds 16-19
   .addSet .MSG (.MSGn 0) 0x240CA1CC0FC19DC6 0xEFBE4786E49B69C1,
   .sha256rnds2 .STATE1 .STATE1 .STATE0 .MSG, .alignr .TMP (.MSGn 0) (.MSGn 3) 4,
   .add (.MSGn 1) (.MSGn 1) .TMP, .sha256msg2 (.MSGn 1) (.MSGn 1) (.MSGn 0),
   .shuffle32 .MSG .MSG 0x0E, .sha256rnds2 .STATE0 .STATE0 .STATE1 .MSG,
   .sha256msg1 (.MSGn 3) (.MSGn 3) (.MSGn 0),
   -- Rounds 20-23
   .addSet .MSG (.MSGn 1) 0x76F988DA5CB0A9DC 0x4A7484AA2DE92C6F,
   .sha256rnds2 .STATE1 .STATE1 .STATE0 .MSG, .alignr .TMP (.MSGn 1) (.MSGn 0) 4,
   .add (.MSGn 2) (.MSGn 2) .TMP, .sha256msg2 (.MSGn 2) (.MSGn 2) (.MSGn 1),
   .shuffle32 .MSG .MSG 0x0E, .sha256rnds2 .STATE0 .STATE0 .STATE1 .MSG,
   .sha256msg1 (.MSGn 0) (.MSGn 0) (.MSGn 1),
   -- Rounds 24-27
   .addSet .MSG (.MSGn 2) 0xBF597FC7B00327C8 0xA831C66D983E5152,
   .sha256rnds2 .STATE1 .STATE1 .STATE0 .MSG, .alignr .TMP (.MSGn 2) (.MSGn 1) 4,
   .add (.MSGn 3) (.MSGn 3) .TMP, .sha256msg2 (.MSGn 3) (.MSGn 3) (.MSGn 2),
   .shuffle32 .MSG .MSG 0x0E, .sha256rnds2 .STATE0 .STATE0 .STATE1 .MSG,
   .sha256msg1 (.MSGn 1) (.MSGn 1) (.MSGn 2),
   -- Rounds 28-31
   .addSet .MSG (.MSGn 3) 0x1429296706CA6351 0xD5A79147C6E00BF3,
   .sha256rnds2 .STATE1 .STATE1 .STATE0 .MSG, .alignr .TMP (.MSGn 3) (.MSGn 2) 4,
   .add (.MSGn 0) (.MSGn 0) .TMP, .sha256msg2 (.MSGn 0) (.MSGn 0) (.MSGn 3),
   .shuffle32 .MSG .MSG 0x0E, .sha256rnds2 .STATE0 .STATE0 .STATE1 .MSG,
   .sha256msg1 (.MSGn 2) (.MSGn 2) (.MSGn 3),
   -- Rounds 32-35
   .addSet .MSG (.MSGn 0) 0x53380D134D2C6DFC 0x2E1B213827B70A85,
   .sha256rnds2 .STATE1 .STATE1 .STATE0 .MSG, .alignr .TMP (.MSGn 0) (.MSGn 3) 4,
   .add (.MSGn 1) (.MSGn 1) .TMP, .sha256msg2 (.MSGn 1) (.MSGn 1) (.MSGn 0),
   .shuffle32 .MSG .MSG 0x0E, .sha256rnds2 .STATE0 .STATE0 .STATE1 .MSG,
   .sha256msg1 (.MSGn 3) (.MSGn 3) (.MSGn 0),
   -- Rounds 36-39
   .addSet .MSG (.MSGn 1) 0x92722C8581C2C92E 0x766A0ABB650A7354,
   .sha256rnds2 .STATE1 .STATE1 .STATE0 .MSG, .alignr .TMP (.MSGn 1) (.MSGn 0) 4,
   .add (.MSGn 2) (.MSGn 2) .TMP, .sha256msg2 (.MSGn 2) (.MSGn 2) (.MSGn 1),
   .shuffle32 .MSG .MSG 0x0E, .sha256rnds2 .STATE0 .STATE0 .STATE1 .MSG,
   .sha256msg1 (.MSGn 0) (.MSGn 0) (.MSGn 1),
   -- Rounds 40-43
   .addSet .MSG (.MSGn 2) 0xC76C51A3C24B8B70 0xA81A664BA2BFE8A1,
   .sha256rnds2 .STATE1 .STATE1 .STATE0 .MSG, .alignr .TMP (.MSGn 2) (.MSGn 1) 4,
   .add (.MSGn 3) (.MSGn 3) .TMP, .sha256msg2 (.MSGn 3) (.MSGn 3) (.MSGn 2),
   .shuffle32 .MSG .MSG 0x0E, .sha256rnds2 .STATE0 .STATE0 .STATE1 .MSG,
   .sha256msg1 (.MSGn 1) (.MSGn 1) (.MSGn 2),
   -- Rounds 44-47
   .addSet .MSG (.MSGn 3) 0x106AA070F40E3585 0xD6990624D192E819,
   .sha256rnds2 .STATE1 .STATE1 .STATE0 .MSG, .alignr .TMP (.MSGn 3) (.MSGn 2) 4,
   .add (.MSGn 0) (.MSGn 0) .TMP, .sha256msg2 (.MSGn 0) (.MSGn 0) (.MSGn 3),
   .shuffle32 .MSG .MSG 0x0E, .sha256rnds2 .STATE0 .STATE0 .STATE1 .MSG,
   .sha256msg1 (.MSGn 2) (.MSGn 2) (.MSGn 3),
   -- Rounds 48-51
   .addSet .MSG (.MSGn 0) 0x34B0BCB52748774C 0x1E376C0819A4C116,
   .sha256rnds2 .STATE1 .STATE1 .STATE0 .MSG, .alignr .TMP (.MSGn 0) (.MSGn 3) 4,
   .add (.MSGn 1) (.MSGn 1) .TMP, .sha256msg2 (.MSGn 1) (.MSGn 1) (.MSGn 0),
   .shuffle32 .MSG .MSG 0x0E, .sha256rnds2 .STATE0 .STATE0 .STATE1 .MSG,
   .sha256msg1 (.MSGn 3) (.MSGn 3) (.MSGn 0),
   -- Rounds 52-55
   .addSet .MSG (.MSGn 1) 0x682E6FF35B9CCA4F 0x4ED8AA4A391C0CB3,
   .sha256rnds2 .STATE1 .STATE1 .STATE0 .MSG, .alignr .TMP (.MSGn 1) (.MSGn 0) 4,
   .add (.MSGn 2) (.MSGn 2) .TMP, .sha256msg2 (.MSGn 2) (.MSGn 2) (.MSGn 1),
   .shuffle32 .MSG .MSG 0x0E, .sha256rnds2 .STATE0 .STATE0 .STATE1 .MSG,
   -- Rounds 56-59
   .addSet .MSG (.MSGn 2) 0x8CC7020884C87814 0x78A5636F748F82EE,
   .sha256rnds2 .STATE1 .STATE1 .STATE0 .MSG, .alignr .TMP (.MSGn 2) (.MSGn 1) 4,
   .add (.MSGn 3) (.MSGn 3) .TMP, .sha256msg2 (.MSGn 3) (.MSGn 3) (.MSGn 2),
   .shuffle32 .MSG .MSG 0x0E, .sha256rnds2 .STATE0 .STATE0 .STATE1 .MSG,
   -- Rounds 60-63
   .addSet .MSG (.MSGn 3) 0xC67178F2BEF9A3F7 0xA4506CEB90BEFFFA,
   .sha256rnds2 .STATE1 .STATE1 .STATE0 .MSG, .shuffle32 .MSG .MSG 0x0E,
   .sha256rnds2 .STATE0 .STATE0 .STATE1 .MSG,
   -- Combine state
   .add .STATE0 .STATE0 .ABEF_SAVE, .add .STATE1 .STATE1 .CDGH_SAVE]

/-- `sha256_transform_x86`; what is in the registers before they are assigned to
is `r`. -/
def sha256TransformX86 (r : Sha256Reg → M128i) (state64 : List UInt64)
    (data : List UInt8) : List UInt64 :=
  let TMP : M128i :=
    ⟨packed state64 0, packed state64 1, packed state64 2, packed state64 3⟩
  let STATE1 : M128i :=
    ⟨packed state64 4, packed state64 5, packed state64 6, packed state64 7⟩
  let TMP := shuffleEpi32 TMP 0xB1
  let STATE1 := shuffleEpi32 STATE1 0x1B
  let STATE0 := alignrEpi8 TMP STATE1 8
  let STATE1 := blendEpi16 STATE1 TMP 0xF0
  let r := Function.update (Function.update r .STATE0 STATE0) .STATE1 STATE1
  let r := absorb 64 (fun r block => runProgram sha256Mask sha256Program block r) r data
  let TMP := shuffleEpi32 (r .STATE0) 0x1B
  let STATE1 := shuffleEpi32 (r .STATE1) 0xB1
  let STATE0 := blendEpi16 TMP STATE1 0xF0
  let STATE1 := alignrEpi8 STATE1 TMP 8
  repack state64 [STATE0.d0, STATE0.d1, STATE0.d2, STATE0.d3,
    STATE1.d0, STATE1.d1, STATE1.d2, STATE1.d3]

/-! ## The four vectors of words -/

theorem fin_four_ne (m : Fin 4) :
    m + 1 ≠ m ∧ m + 2 ≠ m ∧ m + 3 ≠ m ∧ m ≠ m + 1 ∧ m ≠ m + 2 ∧ m ≠ m + 3 ∧
      m + 1 ≠ m + 2 ∧ m + 1 ≠ m + 3 ∧ m + 2 ≠ m + 1 ∧ m + 2 ≠ m + 3 ∧
      m + 3 ≠ m + 1 ∧ m + 3 ≠ m + 2 := by
  revert m
  decide

theorem ofNat_four_succ (g : ℕ) : Fin.ofNat 4 (g + 1) = Fin.ofNat 4 g + 1 := by
  apply Fin.ext
  show (g + 1) % 4 = (g % 4 + 1) % 4
  omega

theorem fin_four_round (m : Fin 4) :
    m + 1 + 1 = m + 2 ∧ m + 1 + 2 = m + 3 ∧ m + 1 + 3 = m := by
  revert m
  decide

end Nawam
