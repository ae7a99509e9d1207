import Nawam.Base.Index
import Mathlib.Analysis.SpecialFunctions.Pow.Real
import Mathlib.Analysis.SpecialFunctions.Trigonometric.Basic
import Mathlib.Data.Nat.Nth
import Mathlib.Data.Nat.Prime.Defs

/-!
# The compression functions of the standards

FIPS 180-4 (SHA-1, SHA-256, SHA-512) and RFC 1321 (MD5), in their own terms:
words are bit vectors, the message schedule is a recurrence over all of its
words, a round turns the working variables into the next ones. The constants
are what the standards say they are: the fractional parts of roots of the first
prime numbers for SHA-2, the sines of whole numbers for MD5.
-/

namespace Nawam.Standard

/-! ## Bytes and words -/

/-- The value of some bytes, the most significant one first. -/
def bigEndian (bytes : List UInt8) : ℕ :=
  bytes.foldl (fun n b => 256 * n + b.toNat) 0

/-- The value of some bytes, the least significant one first. -/
def littleEndian (bytes : List UInt8) : ℕ := bigEndian bytes.reverse

/-- The word `t` of `n` bytes in a block. -/
def blockWord (value : List UInt8 → ℕ) (n : ℕ) (block : List UInt8) (t : ℕ) :
    BitVec (8 * n) :=
  .ofNat (8 * n) (value ((block.drop (n * t)).take n))

/-! ## The functions of SHA -/

section

variable {w : ℕ} (x y z : BitVec w)

def Ch : BitVec w := (x &&& y) ^^^ (~~~x &&& z)

def Parity : BitVec w := x ^^^ y ^^^ z

def Maj : BitVec w := (x &&& y) ^^^ (x &&& z) ^^^ (y &&& z)

end

/-! ## SHA-1 -/

namespace Sha1

/-- `f_t` -/
def f (t : ℕ) : BitVec 32 → BitVec 32 → BitVec 32 → BitVec 32 :=
  if t < 20 then Ch
  else if t < 40 then Parity
  else if t < 60 then Maj
  else Parity

/-- `K_t` -/
def K (t : ℕ) : BitVec 32 :=
  if t < 20 then 0x5a827999
  else if t < 40 then 0x6ed9eba1
  else if t < 60 then 0x8f1bbcdc
  else 0xca62c1d6

/-- `W_t` -/
def W (M : ℕ → BitVec 32) (t : ℕ) : BitVec 32 :=
  if t < 16 then M t
  else (W M (t - 3) ^^^ W M (t - 8) ^^^ W M (t - 14) ^^^ W M (t - 16)).rotateLeft 1
termination_by t

/-- The working variables `a` to `e` -/
abbrev Working : Type := BitVec 32 × BitVec 32 × BitVec 32 × BitVec 32 × BitVec 32

def round (W : ℕ → BitVec 32) : Working → ℕ → Working
  | (a, b, c, d, e), t =>
      let T := a.rotateLeft 5 + f t b c d + e + K t + W t
      (T, a, b.rotateLeft 30, c, d)

/-- The next hash value, of the hash value `H` and the block `M`. -/
def compress (H : Fin 5 → BitVec 32) (M : ℕ → BitVec 32) : Fin 5 → BitVec 32 :=
  let (a, b, c, d, e) :=
    (List.range 80).foldl (round (W M)) (H 0, H 1, H 2, H 3, H 4)
  ![a + H 0, b + H 1, c + H 2, d + H 3, e + H 4]

/-- `H(0)` -/
def initial : Fin 5 → BitVec 32 :=
  ![0x67452301, 0xefcdab89, 0x98badcfe, 0x10325476, 0xc3d2e1f0]

end Sha1

/-! ## SHA-2 -/

/-- The first bits of the fractional part of the `k`-th root of `p`. -/
noncomputable def rootFraction (w k p : ℕ) : BitVec w :=
  .ofNat w ⌊2 ^ w * Int.fract ((p : ℝ) ^ (1 / k : ℝ))⌋₊

/-- The `t`-th prime number, from 0 on. -/
noncomputable def prime (t : ℕ) : ℕ := Nat.nth Nat.Prime t

/-- What SHA-256 and SHA-512 differ in. -/
structure Sha2 (w : ℕ) where
  rounds : ℕ
  bigSigma0 : BitVec w → BitVec w
  bigSigma1 : BitVec w → BitVec w
  smallSigma0 : BitVec w → BitVec w
  smallSigma1 : BitVec w → BitVec w

def sha256 : Sha2 32 where
  rounds := 64
  bigSigma0 x := x.rotateRight 2 ^^^ x.rotateRight 13 ^^^ x.rotateRight 22
  bigSigma1 x := x.rotateRight 6 ^^^ x.rotateRight 11 ^^^ x.rotateRight 25
  smallSigma0 x := x.rotateRight 7 ^^^ x.rotateRight 18 ^^^ (x >>> 3)
  smallSigma1 x := x.rotateRight 17 ^^^ x.rotateRight 19 ^^^ (x >>> 10)

def sha512 : Sha2 64 where
  rounds := 80
  bigSigma0 x := x.rotateRight 28 ^^^ x.rotateRight 34 ^^^ x.rotateRight 39
  bigSigma1 x := x.rotateRight 14 ^^^ x.rotateRight 18 ^^^ x.rotateRight 41
  smallSigma0 x := x.rotateRight 1 ^^^ x.rotateRight 8 ^^^ (x >>> 7)
  smallSigma1 x := x.rotateRight 19 ^^^ x.rotateRight 61 ^^^ (x >>> 6)

namespace Sha2

variable {w : ℕ}

/-- The working variables `a` to `h` -/
abbrev Working (w : ℕ) : Type :=
  BitVec w × BitVec w × BitVec w × BitVec w
    × BitVec w × BitVec w × BitVec w × BitVec w

/-- `K_t`: cube roots -/
noncomputable def K (w t : ℕ) : BitVec w := rootFraction w 3 (prime t)

/-- `W_t` -/
def W (sha : Sha2 w) (M : ℕ → BitVec w) (t : ℕ) : BitVec w :=
  if t < 16 then M t
  else sha.smallSigma1 (W sha M (t - 2)) + W sha M (t - 7)
    + sha.smallSigma0 (W sha M (t - 15)) + W sha M (t - 16)
termination_by t

def round (sha : Sha2 w) (K W : ℕ → BitVec w) : Working w → ℕ → Working w
  | (a, b, c, d, e, f, g, h), t =>
      let T₁ := h + sha.bigSigma1 e + Ch e f g + K t + W t
      let T₂ := sha.bigSigma0 a + Maj a b c
      (T₁ + T₂, a, b, c, d + T₁, e, f, g)

/-- The next hash value, of the hash value `H` and the block `M`. -/
noncomputable def compress (sha : Sha2 w) (H : Fin 8 → BitVec w)
    (M : ℕ → BitVec w) : Fin 8 → BitVec w :=
  let (a, b, c, d, e, f, g, h) :=
    (List.range sha.rounds).foldl (sha.round (K w) (sha.W M))
      (H 0, H 1, H 2, H 3, H 4, H 5, H 6, H 7)
  ![a + H 0, b + H 1, c + H 2, d + H 3, e + H 4, f + H 5, g + H 6, h + H 7]

/-- `H(0)`: square roots -/
noncomputable def initial (w : ℕ) (i : Fin 8) : BitVec w :=
  rootFraction w 2 (prime i)

end Sha2

/-! ## MD5 -/

namespace Md5

/-- `F`, `G`, `H` and `I`, for the operation `i`. -/
def auxiliary (i : ℕ) (X Y Z : BitVec 32) : BitVec 32 :=
  if i < 16 then (X &&& Y) ||| (~~~X &&& Z)
  else if i < 32 then (X &&& Z) ||| (Y &&& ~~~Z)
  else if i < 48 then X ^^^ Y ^^^ Z
  else Y ^^^ (X ||| ~~~Z)

/-- `T[i]`, from 1 on. -/
noncomputable def T (i : ℕ) : BitVec 32 :=
  .ofNat 32 ⌊2 ^ 32 * |Real.sin i|⌋₊

/-- The word `k` of the block that the operation `i` takes. -/
def k (i : ℕ) : ℕ :=
  if i < 16 then i
  else if i < 32 then (5 * i + 1) % 16
  else if i < 48 then (3 * i + 5) % 16
  else 7 * i % 16

/-- How far the operation `i` rotates. -/
def s (i : ℕ) : ℕ :=
  if i < 16 then [7, 12, 17, 22].getD (i % 4) 0
  else if i < 32 then [5, 9, 14, 20].getD (i % 4) 0
  else if i < 48 then [4, 11, 16, 23].getD (i % 4) 0
  else [6, 10, 15, 21].getD (i % 4) 0

abbrev Working : Type := BitVec 32 × BitVec 32 × BitVec 32 × BitVec 32

/-- `a = b + ((a + F(b,c,d) + X[k] + T[i]) <<< s)`. The next operation takes
the registers one place further. -/
noncomputable def operation (X : ℕ → BitVec 32) : Working → ℕ → Working
  | (a, b, c, d), i =>
      (d, b + (a + auxiliary i b c d + X (k i) + T (i + 1)).rotateLeft (s i), b, c)

/-- The next values of `A` to `D`, of their values and the block `X`. -/
noncomputable def compress (H : Fin 4 → BitVec 32) (X : ℕ → BitVec 32) :
    Fin 4 → BitVec 32 :=
  let (a, b, c, d) := (List.range 64).foldl (operation X) (H 0, H 1, H 2, H 3)
  ![a + H 0, b + H 1, c + H 2, d + H 3]

/-- `A` to `D` at first, the low-order bytes first -/
def initial : Fin 4 → BitVec 32 :=
  ![blockWord littleEndian 4 [0x01, 0x23, 0x45, 0x67] 0,
    blockWord littleEndian 4 [0x89, 0xab, 0xcd, 0xef] 0,
    blockWord littleEndian 4 [0xfe, 0xdc, 0xba, 0x98] 0,
    blockWord littleEndian 4 [0x76, 0x54, 0x32, 0x10] 0]

end Md5

end Nawam.Standard
