import Nawam.Base.Bytes
import Nawam.Base.Pieces

/-!
# The transforms of the hash functions

`md5_transform`, `sha1_transform_cc`, `sha256_transform_cc` and
`sha512_transform` of `hash.c`: what a block of data does to the chaining
values. The macros of the source rename the registers from step to step; here
a step returns them renamed, and after the last one the names are back in
place.

The chaining values are 64-bit words. All algorithms but SHA-512 use their low
halves only (`lowHalves`), and what is in the high ones stays without effect
(`lowHalves_chain`).
-/

namespace Nawam

/-! ## Source -/

def rol32 (a b : UInt32) : UInt32 := (a <<< b) ||| (a >>> (32 - b))

def ror32 (a b : UInt32) : UInt32 := (a >>> b) ||| (a <<< (32 - b))

def ror64 (a b : UInt64) : UInt64 := (a >>> b) ||| (a <<< (64 - b))

def readSwap32 (bytes : List UInt8) : UInt32 := .ofNat (leValue bytes.reverse)

def readSwap64 (bytes : List UInt8) : UInt64 := .ofNat (leValue bytes.reverse)

/-- `(uint32_t)ctx->state[..]` -/
def lowHalves (state : List UInt64) : List UInt32 := state.map (·.toUInt32)

/-- `ctx->state[0] += a;` and so on, for the registers there are. -/
def chain (state : List UInt64) (registers : List UInt32) : List UInt64 :=
  List.zipWith (fun s r => s + r.toUInt64) state registers
    ++ state.drop registers.length

section Macros

variable {w : Type} [AndOp w] [OrOp w] [XorOp w]

/-- `Ch`, which is also `F1` of SHA-1 and of MD5 -/
def ch (x y z : w) : w := z ^^^ (x &&& (y ^^^ z))

/-- `Ma`, which is also `F3` of SHA-1 -/
def ma (x y z : w) : w := (x &&& y) ||| (z &&& (x ||| y))

/-- `F2` and `F4` of SHA-1, `F3` of MD5 -/
def parity (x y z : w) : w := x ^^^ y ^^^ z

end Macros

/-! ### SHA-1 -/

/-- `F1` to `F4` with `K1` to `K4`, for the step `i`. -/
def sha1Round (i : ℕ) : (UInt32 → UInt32 → UInt32 → UInt32) × UInt32 :=
  if i < 20 then (ch, 0x5a827999)
  else if i < 40 then (parity, 0x6ed9eba1)
  else if i < 60 then (ma, 0x8f1bbcdc)
  else (parity, 0xca62c1d6)

/-- `x[i]` for the first 16 steps, `M(i)` behind them. -/
def sha1Word (x : List UInt32) (i : ℕ) : List UInt32 :=
  if i < 16 then x
  else
    let tm := x.getD (i % 16) 0 ^^^ x.getD ((i - 14) % 16) 0
      ^^^ x.getD ((i - 8) % 16) 0 ^^^ x.getD ((i - 3) % 16) 0
    x.set (i % 16) (rol32 tm 1)

/-- The registers `a` to `e` -/
abbrev Sha1Registers : Type := UInt32 × UInt32 × UInt32 × UInt32 × UInt32

def sha1Step : Sha1Registers × List UInt32 → ℕ → Sha1Registers × List UInt32
  | ((a, b, c, d, e), x), i =>
      let x := sha1Word x i
      let (f, k) := sha1Round i
      let e := e + (rol32 a 5 + f b c d + k + x.getD (i % 16) 0)
      ((e, a, rol32 b 30, c, d), x)

def sha1Rounds (s : List UInt32) (data : List UInt8) : List UInt32 :=
  let x := (pieces 4 16 data).map readSwap32
  let ((a, b, c, d, e), _) := (List.range 80).foldl sha1Step
    ((s.getD 0 0, s.getD 1 0, s.getD 2 0, s.getD 3 0, s.getD 4 0), x)
  [a, b, c, d, e]

def sha1TransformCc (state : List UInt64) (data : List UInt8) : List UInt64 :=
  chain state (sha1Rounds (lowHalves state) data)

/-! ### SHA-256 -/

def k256 : List UInt32 :=
  [0x428a2f98, 0x71374491, 0xb5c0fbcf, 0xe9b5dba5, 0x3956c25b, 0x59f111f1,
   0x923f82a4, 0xab1c5ed5, 0xd807aa98, 0x12835b01, 0x243185be, 0x550c7dc3,
   0x72be5d74, 0x80deb1fe, 0x9bdc06a7, 0xc19bf174, 0xe49b69c1, 0xefbe4786,
   0x0fc19dc6, 0x240ca1cc, 0x2de92c6f, 0x4a7484aa, 0x5cb0a9dc, 0x76f988da,
   0x983e5152, 0xa831c66d, 0xb00327c8, 0xbf597fc7, 0xc6e00bf3, 0xd5a79147,
   0x06ca6351, 0x14292967, 0x27b70a85, 0x2e1b2138, 0x4d2c6dfc, 0x53380d13,
   0x650a7354, 0x766a0abb, 0x81c2c92e, 0x92722c85, 0xa2bfe8a1, 0xa81a664b,
   0xc24b8b70, 0xc76c51a3, 0xd192e819, 0xd6990624, 0xf40e3585, 0x106aa070,
   0x19a4c116, 0x1e376c08, 0x2748774c, 0x34b0bcb5, 0x391c0cb3, 0x4ed8aa4a,
   0x5b9cca4f, 0x682e6ff3, 0x748f82ee, 0x78a5636f, 0x84c87814, 0x8cc70208,
   0x90befffa, 0xa4506ceb, 0xbef9a3f7, 0xc67178f2]

/-- The registers `a` to `h` -/
abbrev Sha2Registers (w : Type) : Type := w × w × w × w × w × w × w × w

namespace Sha256

def S0 (x : UInt32) : UInt32 := ror32 (ror32 (ror32 x 9 ^^^ x) 11 ^^^ x) 2

def S1 (x : UInt32) : UInt32 := ror32 (ror32 (ror32 x 14 ^^^ x) 5 ^^^ x) 6

def s0 (x : UInt32) : UInt32 := ror32 (ror32 x 11 ^^^ x) 7 ^^^ (x >>> 3)

def s1 (x : UInt32) : UInt32 := ror32 (ror32 x 2 ^^^ x) 17 ^^^ (x >>> 10)

/-- `BLK0(i)` in the first 16 steps, `BLK2(i)` behind them. -/
def blk (x : List UInt32) (i : ℕ) : List UInt32 :=
  if i < 16 then x
  else x.set (i % 16) (x.getD (i % 16) 0 + (s1 (x.getD ((i - 2) % 16) 0)
    + x.getD ((i - 7) % 16) 0 + s0 (x.getD ((i - 15) % 16) 0)))

/-- `R`, with `i + j` of the source for `i` -/
def r : Sha2Registers UInt32 × List UInt32 → ℕ →
    Sha2Registers UInt32 × List UInt32
  | ((a, b, c, d, e, f, g, h), x), i =>
      let x := blk x i
      let h := h + (S1 e + ch e f g + k256.getD i 0 + x.getD (i % 16) 0)
      let d := d + h
      let h := h + (S0 a + ma a b c)
      ((h, a, b, c, d, e, f, g), x)

end Sha256

def sha256Rounds (s : List UInt32) (data : List UInt8) : List UInt32 :=
  let x := (pieces 4 16 data).map readSwap32
  let ((a, b, c, d, e, f, g, h), _) := (List.range 64).foldl Sha256.r
    ((s.getD 0 0, s.getD 1 0, s.getD 2 0, s.getD 3 0,
      s.getD 4 0, s.getD 5 0, s.getD 6 0, s.getD 7 0), x)
  [a, b, c, d, e, f, g, h]

def sha256TransformCc (state : List UInt64) (data : List UInt8) : List UInt64 :=
  chain state (sha256Rounds (lowHalves state) data)

/-! ### SHA-512 -/

def k512 : List UInt64 :=
  [0x428a2f98d728ae22, 0x7137449123ef65cd, 0xb5c0fbcfec4d3b2f,
   0xe9b5dba58189dbbc, 0x3956c25bf348b538, 0x59f111f1b605d019,
   0x923f82a4af194f9b, 0xab1c5ed5da6d8118, 0xd807aa98a3030242,
   0x12835b0145706fbe, 0x243185be4ee4b28c, 0x550c7dc3d5ffb4e2,
   0x72be5d74f27b896f, 0x80deb1fe3b1696b1, 0x9bdc06a725c71235,
   0xc19bf174cf692694, 0xe49b69c19ef14ad2, 0xefbe4786384f25e3,
   0x0fc19dc68b8cd5b5, 0x240ca1cc77ac9c65, 0x2de92c6f592b0275,
   0x4a7484aa6ea6e483, 0x5cb0a9dcbd41fbd4, 0x76f988da831153b5,
   0x983e5152ee66dfab, 0xa831c66d2db43210, 0xb00327c898fb213f,
   0xbf597fc7beef0ee4, 0xc6e00bf33da88fc2, 0xd5a79147930aa725,
   0x06ca6351e003826f, 0x142929670a0e6e70, 0x27b70a8546d22ffc,
   0x2e1b21385c26c926, 0x4d2c6dfc5ac42aed, 0x53380d139d95b3df,
   0x650a73548baf63de, 0x766a0abb3c77b2a8, 0x81c2c92e47edaee6,
   0x92722c851482353b, 0xa2bfe8a14cf10364, 0xa81a664bbc423001,
   0xc24b8b70d0f89791, 0xc76c51a30654be30, 0xd192e819d6ef5218,
   0xd69906245565a910, 0xf40e35855771202a, 0x106aa07032bbd1b8,
   0x19a4c116b8d2d0c8, 0x1e376c085141ab53, 0x2748774cdf8eeb99,
   0x34b0bcb5e19b48a8, 0x391c0cb3c5c95a63, 0x4ed8aa4ae3418acb,
   0x5b9cca4f7763e373, 0x682e6ff3d6b2b8a3, 0x748f82ee5defb2fc,
   0x78a5636f43172f60, 0x84c87814a1f0ab72, 0x8cc702081a6439ec,
   0x90befffa23631e28, 0xa4506cebde82bde9, 0xbef9a3f7b2c67915,
   0xc67178f2e372532b, 0xca273eceea26619c, 0xd186b8c721c0c207,
   0xeada7dd6cde0eb1e, 0xf57d4f7fee6ed178, 0x06f067aa72176fba,
   0x0a637dc5a2c898a6, 0x113f9804bef90dae, 0x1b710b35131c471b,
   0x28db77f523047d84, 0x32caab7b40c72493, 0x3c9ebe0a15c9bebc,
   0x431d67c49c100d4c, 0x4cc5d4becb3e42b6, 0x597f299cfc657e2a,
   0x5fcb6fab3ad6faec, 0x6c44198c4a475817]

namespace Sha512

def S0 (x : UInt64) : UInt64 := ror64 (ror64 (ror64 x 5 ^^^ x) 6 ^^^ x) 28

def S1 (x : UInt64) : UInt64 := ror64 (ror64 (ror64 x 23 ^^^ x) 4 ^^^ x) 14

def s0 (x : UInt64) : UInt64 := ror64 (ror64 x 7 ^^^ x) 1 ^^^ (x >>> 7)

def s1 (x : UInt64) : UInt64 := ror64 (ror64 x 42 ^^^ x) 19 ^^^ (x >>> 6)

/-- The first `i` entries of `W`, with one more. -/
def schedule (data : List UInt8) (W : List UInt64) (i : ℕ) : List UInt64 :=
  W ++ [if i < 16 then readSwap64 ((data.drop (8 * i)).take 8)
    else s1 (W.getD (i - 2) 0) + W.getD (i - 7) 0 + s0 (W.getD (i - 15) 0)
      + W.getD (i - 16) 0]

def r (W : List UInt64) : Sha2Registers UInt64 → ℕ → Sha2Registers UInt64
  | (a, b, c, d, e, f, g, h), i =>
      let h := h + (S1 e + ch e f g + k512.getD i 0 + W.getD i 0)
      let d := d + h
      let h := h + (S0 a + ma a b c)
      (h, a, b, c, d, e, f, g)

end Sha512

def sha512Transform (state : List UInt64) (data : List UInt8) : List UInt64 :=
  let W := (List.range 80).foldl (Sha512.schedule data) []
  let (a, b, c, d, e, f, g, h) := (List.range 80).foldl (Sha512.r W)
    (state.getD 0 0, state.getD 1 0, state.getD 2 0, state.getD 3 0,
      state.getD 4 0, state.getD 5 0, state.getD 6 0, state.getD 7 0)
  List.zipWith (· + ·) state [a, b, c, d, e, f, g, h]

/-! ### MD5 -/

/-- The index into `x`, the constant and the shift of every `MD5STEP`. -/
def md5Steps : List (ℕ × UInt32 × UInt32) :=
  [(0, 0xd76aa478, 7), (1, 0xe8c7b756, 12), (2, 0x242070db, 17),
   (3, 0xc1bdceee, 22), (4, 0xf57c0faf, 7), (5, 0x4787c62a, 12),
   (6, 0xa8304613, 17), (7, 0xfd469501, 22), (8, 0x698098d8, 7),
   (9, 0x8b44f7af, 12), (10, 0xffff5bb1, 17), (11, 0x895cd7be, 22),
   (12, 0x6b901122, 7), (13, 0xfd987193, 12), (14, 0xa679438e, 17),
   (15, 0x49b40821, 22), (1, 0xf61e2562, 5), (6, 0xc040b340, 9),
   (11, 0x265e5a51, 14), (0, 0xe9b6c7aa, 20), (5, 0xd62f105d, 5),
   (10, 0x02441453, 9), (15, 0xd8a1e681, 14), (4, 0xe7d3fbc8, 20),
   (9, 0x21e1cde6, 5), (14, 0xc33707d6, 9), (3, 0xf4d50d87, 14),
   (8, 0x455a14ed, 20), (13, 0xa9e3e905, 5), (2, 0xfcefa3f8, 9),
   (7, 0x676f02d9, 14), (12, 0x8d2a4c8a, 20), (5, 0xfffa3942, 4),
   (8, 0x8771f681, 11), (11, 0x6d9d6122, 16), (14, 0xfde5380c, 23),
   (1, 0xa4beea44, 4), (4, 0x4bdecfa9, 11), (7, 0xf6bb4b60, 16),
   (10, 0xbebfbc70, 23), (13, 0x289b7ec6, 4), (0, 0xeaa127fa, 11),
   (3, 0xd4ef3085, 16), (6, 0x04881d05, 23), (9, 0xd9d4d039, 4),
   (12, 0xe6db99e5, 11), (15, 0x1fa27cf8, 16), (2, 0xc4ac5665, 23),
   (0, 0xf4292244, 6), (7, 0x432aff97, 10), (14, 0xab9423a7, 15),
   (5, 0xfc93a039, 21), (12, 0x655b59c3, 6), (3, 0x8f0ccc92, 10),
   (10, 0xffeff47d, 15), (1, 0x85845dd1, 21), (8, 0x6fa87e4f, 6),
   (15, 0xfe2ce6e0, 10), (6, 0xa3014314, 15), (13, 0x4e0811a1, 21),
   (4, 0xf7537e82, 6), (11, 0xbd3af235, 10), (2, 0x2ad7d2bb, 15),
   (9, 0xeb86d391, 21)]

/-- `F1` to `F4`, for the step `i`. -/
def md5Round (i : ℕ) (x y z : UInt32) : UInt32 :=
  if i < 16 then ch x y z
  else if i < 32 then ch z x y
  else if i < 48 then parity x y z
  else y ^^^ (x ||| ~~~z)

def md5Step (data : List UInt32) :
    UInt32 × UInt32 × UInt32 × UInt32 → (ℕ × UInt32 × UInt32) × ℕ →
      UInt32 × UInt32 × UInt32 × UInt32
  | (w, x, y, z), ((j, k, s), i) =>
      let w := w + (md5Round i x y z + (data.getD j 0 + k))
      let w := rol32 w s
      (z, w + x, x, y)

def md5Rounds (s : List UInt32) (data : List UInt8) : List UInt32 :=
  let x := (pieces 4 16 data).map fun bytes => UInt32.ofNat (leValue bytes)
  let (a, b, c, d) := md5Steps.zipIdx.foldl (md5Step x)
    (s.getD 0 0, s.getD 1 0, s.getD 2 0, s.getD 3 0)
  [a, b, c, d]

def md5Transform (state : List UInt64) (data : List UInt8) : List UInt64 :=
  chain state (md5Rounds (lowHalves state) data)

/-! ## The high halves -/

theorem chain_length (state : List UInt64) (registers : List UInt32) :
    (chain state registers).length = state.length := by
  rw [chain, List.length_append, List.length_zipWith, List.length_drop]
  omega

/-- The low halves take the registers whatever is above them. -/
theorem lowHalves_chain (state : List UInt64) (registers : List UInt32) :
    lowHalves (chain state registers)
      = List.zipWith (· + ·) (lowHalves state) registers
        ++ (lowHalves state).drop registers.length := by
  rw [lowHalves, chain, List.map_append, List.map_zipWith, lowHalves,
    List.map_drop, List.zipWith_map_left]
  simp

end Nawam
