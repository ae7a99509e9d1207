import Nawam.Base.Blocks
import Nawam.Hash.HashThread
import Nawam.Hash.Transforms

/-!
# Hashing a stream

`*_init`, `*_write` and `*_final` of `hash.c` for MD5, SHA-1, SHA-256 and
SHA-512, and what is built on them: `HashBuffer`, `HashFile`, and the calls
that the threads of `HashThread` make.

A context that was given a message has absorbed the first blocks of it and
keeps the rest in its buffer (`HashContext.Holds`). A write appends a chunk to
the message, and the end is the digest of the padded message. `md5_write` is
the odd one: where a chunk does not fill the block, it copies what would fill
it, and not what there is.
-/

namespace Nawam

/-! ## Source -/

/-- The indices into `hash_init`, `hash_write` and `hash_final`. -/
inductive HashType where
  | md5
  | sha1
  | sha256
  | sha512
deriving DecidableEq, Repr

/-- `*_BLOCKSIZE` -/
def HashType.blockSize : HashType → ℕ
  | .md5 | .sha1 | .sha256 => 64
  | .sha512 => 128

def HashType.hashCount : HashType → ℕ
  | .md5 => 16
  | .sha1 => 20
  | .sha256 => 32
  | .sha512 => 64

structure HashContext where
  buf : List UInt8
  state : List UInt64
  bytecount : UInt64
deriving DecidableEq, Repr

abbrev maxBlockSize : ℕ := 128

/-- What a transform makes of the chaining values and a block. -/
abbrev Transform : Type := List UInt64 → List UInt8 → List UInt64

/-- The processor: `sha1_transform_x86` and `sha256_transform_x86` where it
has the instructions. They take any number of blocks. -/
structure HashCpu where
  sha1Accel : Option Transform
  sha256Accel : Option Transform

def sha1Transform (cpu : HashCpu) : Transform :=
  cpu.sha1Accel.getD sha1TransformCc

def sha256Transform (cpu : HashCpu) : Transform :=
  cpu.sha256Accel.getD sha256TransformCc

/-! ### Init -/

/-- `memset(ctx, 0, sizeof(*ctx))` and the first chaining values. -/
def initContext (state : List UInt64) : HashContext where
  buf := .replicate maxBlockSize 0
  state := state ++ .replicate (8 - state.length) 0
  bytecount := 0

def md5Init : HashContext :=
  initContext [0x67452301, 0xefcdab89, 0x98badcfe, 0x10325476]

def sha1Init : HashContext :=
  initContext [0x67452301, 0xefcdab89, 0x98badcfe, 0x10325476, 0xc3d2e1f0]

def sha256Init : HashContext :=
  initContext [0x6a09e667, 0xbb67ae85, 0x3c6ef372, 0xa54ff53a,
    0x510e527f, 0x9b05688c, 0x1f83d9ab, 0x5be0cd19]

def sha512Init : HashContext :=
  initContext [0x6a09e667f3bcc908, 0xbb67ae8584caa73b, 0x3c6ef372fe94f82b,
    0xa54ff53a5f1d36f1, 0x510e527fade682d1, 0x9b05688c2b3e6c1f,
    0x1f83d9abfb41bd6b, 0x5be0cd19137e2179]

def hashInit : HashType → HashContext
  | .md5 => md5Init
  | .sha1 => sha1Init
  | .sha256 => sha256Init
  | .sha512 => sha512Init

/-! ### Write -/

def blockLoop (blockSize : ℕ) (transform : Transform) (buf : List UInt8) :
    ℕ → List UInt64 → ℕ → ℕ → C (List UInt64 × ℕ × ℕ)
  | 0, _, _, _ => .error .outOfFuel
  | fuel + 1, state, off, len =>
      if blockSize ≤ len then do
        let block ← loadN buf off blockSize
        blockLoop blockSize transform buf fuel (transform state block)
          (off + blockSize) (len - blockSize)
      else return (state, off, len)

def accelBlocks (blockSize : ℕ) (x86 : Transform) (buf : List UInt8)
    (state : List UInt64) (off len : ℕ) : C (List UInt64 × ℕ × ℕ) :=
  if blockSize ≤ len then do
    let num := len / blockSize * blockSize
    let blocks ← loadN buf off num
    return (x86 state blocks, off + num, len - num)
  else return (state, off, len)

def wholeBlocks (blockSize : ℕ) (transform : Transform)
    (accel : Option Transform) (buf : List UInt8) (state : List UInt64)
    (off len : ℕ) : C (List UInt64 × ℕ × ℕ) :=
  match accel with
  | some x86 => accelBlocks blockSize x86 buf state off len
  | none => blockLoop blockSize transform buf (len + 1) state off len

/-- The whole blocks at `off`, and the remaining bytes into the buffer. -/
def writeBlocks (blockSize : ℕ) (transform : Transform)
    (accel : Option Transform) (buf : List UInt8) (off len : ℕ)
    (ctx : HashContext) : C HashContext := do
  let (state, off, len) ←
    wholeBlocks blockSize transform accel buf ctx.state off len
  let rest ← loadN buf off len
  let block ← copyInto ctx.buf 0 rest
  return { ctx with state := state, buf := block }

/-- `memcpy(p, buf, num)` and the transform of the block this completes. -/
def completeBlock (blockSize : ℕ) (transform : Transform) (num : ℕ)
    (buf : List UInt8) (ctx : HashContext) : C HashContext := do
  let data ← loadN buf 0 (blockSize - num)
  let filled ← copyInto ctx.buf num data
  let block ← loadN filled 0 blockSize
  return { ctx with buf := filled, state := transform ctx.state block }

/-- The write functions of the SHA family; `buf` is all that can be read at
the pointer. -/
def shaWrite (blockSize : ℕ) (transform : Transform) (accel : Option Transform)
    (buf : List UInt8) (len : ℕ) (ctx : HashContext) : C HashContext :=
  let num := ctx.bytecount.toNat &&& (blockSize - 1)
  let ctx := { ctx with bytecount := ctx.bytecount + .ofNat len }
  if num = 0 then writeBlocks blockSize transform accel buf 0 len ctx
  else if len < blockSize - num then do
    let data ← loadN buf 0 len
    let filled ← copyInto ctx.buf num data
    return { ctx with buf := filled }
  else do
    let ctx ← completeBlock blockSize transform num buf ctx
    writeBlocks blockSize transform accel buf (blockSize - num)
      (len - (blockSize - num)) ctx

def sha1Write (cpu : HashCpu) : List UInt8 → ℕ → HashContext → C HashContext :=
  shaWrite 64 (sha1Transform cpu) cpu.sha1Accel

def sha256Write (cpu : HashCpu) : List UInt8 → ℕ → HashContext → C HashContext :=
  shaWrite 64 (sha256Transform cpu) cpu.sha256Accel

def sha512Write : List UInt8 → ℕ → HashContext → C HashContext :=
  shaWrite 128 sha512Transform none

def md5Write (buf : List UInt8) (len : ℕ) (ctx : HashContext) : C HashContext :=
  let num := ctx.bytecount.toNat &&& (64 - 1)
  let ctx := { ctx with bytecount := ctx.bytecount + .ofNat len }
  if num = 0 then writeBlocks 64 md5Transform none buf 0 len ctx
  else if len < 64 - num then do
    -- not `len` bytes, as in the other three
    let data ← loadN buf 0 (64 - num)
    let filled ← copyInto ctx.buf num data
    return { ctx with buf := filled }
  else do
    let ctx ← completeBlock 64 md5Transform num buf ctx
    writeBlocks 64 md5Transform none buf (64 - num) (len - (64 - num)) ctx

def hashWrite (cpu : HashCpu) :
    HashType → List UInt8 → ℕ → HashContext → C HashContext
  | .md5 => md5Write
  | .sha1 => sha1Write cpu
  | .sha256 => sha256Write cpu
  | .sha512 => sha512Write

/-! ### Final -/

/-- The bytes of a word, the lowest one first. -/
def littleEndian64 (v : UInt64) : List UInt8 :=
  [v, v >>> 8, v >>> 16, v >>> 24, v >>> 32, v >>> 40, v >>> 48,
    v >>> 56].map (·.toUInt8)

/-- `*(uint32_t*)p = v` -/
def write32 (v : UInt32) : List UInt8 :=
  [v, v >>> 8, v >>> 16, v >>> 24].map (·.toUInt8)

def writeSwap32 (v : UInt32) : List UInt8 := (write32 v).reverse

def writeSwap64 (v : UInt64) : List UInt8 := (littleEndian64 v).reverse

def transformBuf (blockSize : ℕ) (transform : Transform) (ctx : HashContext) :
    C HashContext := do
  let block ← loadN ctx.buf 0 blockSize
  return { ctx with state := transform ctx.state block }

/-- Pad whatever data is left in the buffer. -/
def padLoop (blockSize stop : ℕ) (transform : Transform) :
    ℕ → ℕ → HashContext → C HashContext
  | 0, _, _ => .error .outOfFuel
  | fuel + 1, pos, ctx =>
      if pos = stop then return ctx
      else do
        let pos := pos &&& (blockSize - 1)
        let ctx ← (if pos = 0 then transformBuf blockSize transform ctx
          else .ok ctx)
        let buf ← store ctx.buf pos 0
        padLoop blockSize stop transform fuel (pos + 1) { ctx with buf := buf }

/-- The last transform, and `X` for the values it gives. -/
def finishBuf (blockSize : ℕ) (transform : Transform)
    (output : List UInt64 → List UInt8) (ctx : HashContext) : C HashContext := do
  let ctx ← transformBuf blockSize transform ctx
  let buf ← copyInto ctx.buf 0 (output ctx.state)
  return { ctx with buf := buf }

/-- The final functions of the SHA family, with the length field and the
values that `X` puts in front of the buffer. -/
def shaFinal (blockSize : ℕ) (transform : Transform)
    (length : UInt64 → List UInt8) (output : List UInt64 → List UInt8)
    (ctx : HashContext) : C HashContext := do
  let pos := ctx.bytecount.toNat &&& (blockSize - 1)
  let field := length ctx.bytecount
  let stop := blockSize - field.length
  let buf ← store ctx.buf pos 0x80
  let ctx ← padLoop blockSize stop transform (2 * blockSize) (pos + 1)
    { ctx with buf := buf }
  let buf ← copyInto ctx.buf stop field
  finishBuf blockSize transform output { ctx with buf := buf }

/-- `X(0)` and so on, for `n` 32-bit words -/
def output32 (put : UInt32 → List UInt8) (n : ℕ) (state : List UInt64) :
    List UInt8 :=
  (List.range n).flatMap fun i => put (state.getD i 0).toUInt32

/-- `X(0)` to `X(7)` of SHA-512 -/
def output64 (state : List UInt64) : List UInt8 :=
  (List.range 8).flatMap fun i => writeSwap64 (state.getD i 0)

def sha1Final (cpu : HashCpu) : HashContext → C HashContext :=
  shaFinal 64 (sha1Transform cpu) (fun count => writeSwap64 (count <<< 3))
    (output32 writeSwap32 5)

def sha256Final (cpu : HashCpu) : HashContext → C HashContext :=
  shaFinal 64 (sha256Transform cpu) (fun count => writeSwap64 (count <<< 3))
    (output32 writeSwap32 8)

def sha512Final : HashContext → C HashContext :=
  shaFinal 128 sha512Transform
    (fun count => writeSwap64 (count >>> 61) ++ writeSwap64 (count <<< 3))
    output64

/-- The two ways to pad for MD5, behind the 0x80 with `count` bytes of the
block left. -/
def md5Pad (count : ℕ) (ctx : HashContext) : C HashContext :=
  if count < 8 then do
    -- two lots of padding
    let buf ← copyInto ctx.buf (64 - count) (.replicate count 0)
    let ctx ← transformBuf 64 md5Transform { ctx with buf := buf }
    let buf ← copyInto ctx.buf 0 (.replicate (64 - 8) 0)
    return { ctx with buf := buf }
  else do
    let buf ← copyInto ctx.buf (64 - count) (.replicate (count - 8) 0)
    return { ctx with buf := buf }

def md5Final (ctx : HashContext) : C HashContext := do
  let count := ctx.bytecount.toNat &&& (64 - 1)
  let bitcount := ctx.bytecount <<< 3
  let buf ← store ctx.buf count 0x80
  let ctx ← md5Pad (64 - 1 - count) { ctx with buf := buf }
  let buf ← copyInto ctx.buf (64 - 8) (littleEndian64 bitcount)
  finishBuf 64 md5Transform (output32 write32 4) { ctx with buf := buf }

def hashFinal (cpu : HashCpu) : HashType → HashContext → C HashContext
  | .md5 => md5Final
  | .sha1 => sha1Final cpu
  | .sha256 => sha256Final cpu
  | .sha512 => sha512Final

/-! ### Uses -/

/-- What `*_write` is given: `len` bytes at a pointer from which `mem` can be
read. -/
structure Chunk where
  mem : List UInt8
  len : ℕ
  len_le : len ≤ mem.length

def Chunk.data (chunk : Chunk) : List UInt8 := chunk.mem.take chunk.len

theorem Chunk.data_length (chunk : Chunk) : chunk.data.length = chunk.len :=
  List.length_take_of_le chunk.len_le

def message (chunks : List Chunk) : List UInt8 := chunks.flatMap Chunk.data

def hashChunks (cpu : HashCpu) (type : HashType) :
    List Chunk → HashContext → C HashContext
  | [], ctx => return ctx
  | chunk :: chunks, ctx => do
      let ctx ← hashWrite cpu type chunk.mem chunk.len ctx
      hashChunks cpu type chunks ctx

/-- `hash_final`, and `memcpy(hash, hash_ctx.buf, hash_count[type])`. -/
def hashResult (cpu : HashCpu) (type : HashType) (ctx : HashContext) :
    C (List UInt8) := do
  let ctx ← hashFinal cpu type ctx
  loadN ctx.buf 0 type.hashCount

def hashStream (cpu : HashCpu) (type : HashType) (chunks : List Chunk) :
    C (List UInt8) := do
  let ctx ← hashChunks cpu type chunks (hashInit type)
  hashResult cpu type ctx

def hashBuffer (cpu : HashCpu) (type : HashType) (buf : List UInt8) :
    C (List UInt8) := do
  let ctx ← hashWrite cpu type buf buf.length (hashInit type)
  hashResult cpu type ctx

/-- The loop of `HashFile`. The reads fail or return some bytes, until the
user cancels; what was in the buffer behind them stays there. -/
def hashFileLoop (cpu : HashCpu) (type : HashType) :
    List (Option (List UInt8)) → List UInt8 → HashContext →
      C (Option HashContext)
  | [], _, _ => return none
  | none :: _, _, _ => return none
  | some data :: reads, buf, ctx =>
      if data.length = 0 then return some ctx
      else do
        let buf ← copyInto buf 0 data
        let ctx ← hashWrite cpu type buf data.length ctx
        hashFileLoop cpu type reads buf ctx

/-- `HashFile` on an open file; `none` is `FALSE`. -/
def hashFile (cpu : HashCpu) (type : HashType)
    (reads : List (Option (List UInt8))) (buf : List UInt8) :
    C (Option (List UInt8)) := do
  match ← hashFileLoop cpu type reads buf (hashInit type) with
  | none => return none
  | some ctx =>
      let hash ← hashResult cpu type ctx
      return some hash

/-- What an `IndividualHashThread` does: the calls it makes, each with what is
in the buffer behind its chunk. -/
def hashCalls (cpu : HashCpu) (type : HashType) :
    List (HashCall × List UInt8) → HashContext → C HashContext
  | [], ctx => return ctx
  | (.write chunk, behind) :: calls, ctx => do
      let ctx ← hashWrite cpu type (chunk ++ behind) chunk.length ctx
      hashCalls cpu type calls ctx
  | (.final, _) :: calls, ctx => do
      let ctx ← hashFinal cpu type ctx
      hashCalls cpu type calls ctx

/-! ## The digest of a message -/

namespace HashType

def transform : HashType → Transform
  | .md5 => md5Transform
  | .sha1 => sha1TransformCc
  | .sha256 => sha256TransformCc
  | .sha512 => sha512Transform

/-- The chaining values in the byte order of the algorithm -/
def output : HashType → List UInt64 → List UInt8
  | .md5 => output32 write32 4
  | .sha1 => output32 writeSwap32 5
  | .sha256 => output32 writeSwap32 8
  | .sha512 => output64

def lengthField : HashType → ℕ → List UInt8
  | .md5, bits => leBytes 8 bits
  | .sha1, bits | .sha256, bits => (leBytes 8 bits).reverse
  | .sha512, bits => (leBytes 16 bits).reverse

def lengthSize : HashType → ℕ
  | .md5 | .sha1 | .sha256 => 8
  | .sha512 => 16

/-- What the standard puts behind a message of `n` bytes: 0x80, as many zeros
as make whole blocks, and the length in bits. -/
def padding (type : HashType) (n : ℕ) : List UInt8 :=
  let filled := (n + 1 + type.lengthSize) % type.blockSize
  0x80 :: (.replicate ((type.blockSize - filled) % type.blockSize) 0
    ++ type.lengthField (8 * n))

/-- The same with any length field. -/
def paddingWith (type : HashType) (n : ℕ) (field : List UInt8) : List UInt8 :=
  let filled := (n + 1 + type.lengthSize) % type.blockSize
  0x80 :: (.replicate ((type.blockSize - filled) % type.blockSize) 0 ++ field)

/-- The transform folded over the padded message -/
def digest (type : HashType) (msg : List UInt8) : List UInt8 :=
  type.output (absorb type.blockSize type.transform (hashInit type).state
    (msg ++ type.padding msg.length))

-- the first of the values in `test_hash`, for MD5 and SHA-1
example : HashType.md5.digest [] =
    [0xd4, 0x1d, 0x8c, 0xd9, 0x8f, 0x00, 0xb2, 0x04,
      0xe9, 0x80, 0x09, 0x98, 0xec, 0xf8, 0x42, 0x7e] := by
  decide +kernel

example : HashType.sha1.digest [] =
    [0xda, 0x39, 0xa3, 0xee, 0x5e, 0x6b, 0x4b, 0x0d, 0x32, 0x55,
      0xbf, 0xef, 0x95, 0x60, 0x18, 0x90, 0xaf, 0xd8, 0x07, 0x09] := by
  decide +kernel

theorem blockSize_pos (type : HashType) : 0 < type.blockSize := by
  cases type <;> decide

theorem blockSize_le (type : HashType) : type.blockSize ≤ maxBlockSize := by
  cases type <;> decide

theorem and_blockSize (type : HashType) (x : ℕ) :
    x &&& (type.blockSize - 1) = x % type.blockSize := by
  cases type with
  | sha512 => exact Nat.and_two_pow_sub_one_eq_mod x 7
  | _ => exact Nat.and_two_pow_sub_one_eq_mod x 6

/-- Chaining values that an algorithm cannot tell apart. -/
def Alike : HashType → List UInt64 → List UInt64 → Prop
  | .sha512, s, t => s = t
  | _, s, t => lowHalves s = lowHalves t

theorem Alike.refl (type : HashType) (s : List UInt64) : type.Alike s s := by
  cases type <;> rfl

theorem Alike.trans {type : HashType} {s t u : List UInt64}
    (h : type.Alike s t) (h' : type.Alike t u) : type.Alike s u := by
  cases type <;> exact Eq.trans h h'

theorem Alike.length_eq {type : HashType} {s t : List UInt64}
    (h : type.Alike s t) : s.length = t.length := by
  have hlow {s t : List UInt64} (h : lowHalves s = lowHalves t) :
      s.length = t.length := by
    simpa [lowHalves] using congrArg List.length h
  cases type with
  | sha512 => exact congrArg List.length h
  | md5 => exact hlow h
  | sha1 => exact hlow h
  | sha256 => exact hlow h

theorem Alike.transform {type : HashType} {s t : List UInt64}
    (h : type.Alike s t) (block : List UInt8) :
    type.Alike (type.transform s block) (type.transform t block) := by
  cases type with
  | sha512 => exact congrArg (sha512Transform · block) h
  | md5 =>
      have h : lowHalves s = lowHalves t := h
      show lowHalves (md5Transform s block) = lowHalves (md5Transform t block)
      rw [md5Transform, md5Transform, lowHalves_chain, lowHalves_chain, h]
  | sha1 =>
      have h : lowHalves s = lowHalves t := h
      show lowHalves (sha1TransformCc s block) = lowHalves (sha1TransformCc t block)
      rw [sha1TransformCc, sha1TransformCc, lowHalves_chain, lowHalves_chain, h]
  | sha256 =>
      have h : lowHalves s = lowHalves t := h
      show lowHalves (sha256TransformCc s block) = lowHalves (sha256TransformCc t block)
      rw [sha256TransformCc, sha256TransformCc, lowHalves_chain, lowHalves_chain, h]

/-- The state of a context has eight words, and a transform leaves it so. -/
theorem transform_length (type : HashType) {state : List UInt64}
    (h : state.length = 8) (block : List UInt8) :
    (type.transform state block).length = 8 := by
  cases type with
  | sha512 =>
      show (sha512Transform state block).length = 8
      rw [sha512Transform, List.length_zipWith, h]
      rfl
  | md5 => exact (chain_length ..).trans h
  | sha1 => exact (chain_length ..).trans h
  | sha256 => exact (chain_length ..).trans h

theorem absorb_length (type : HashType) {state : List UInt64}
    (h : state.length = 8) (data : List UInt8) :
    (absorb type.blockSize type.transform state data).length = 8 :=
  absorb_rel type.transform (g := type.transform) (t := state)
    (R := fun s _ => s.length = 8)
    (fun _ _ block _ hs => type.transform_length hs block) h data

theorem lowHalves_getD (s : List UInt64) (i : ℕ) :
    (lowHalves s).getD i 0 = (s.getD i 0).toUInt32 := by
  simp only [lowHalves, List.getD_eq_getElem?_getD, List.getElem?_map]
  cases s[i]? <;> rfl

theorem output32_eq {s t : List UInt64} (h : lowHalves s = lowHalves t)
    (put : UInt32 → List UInt8) (n : ℕ) :
    output32 put n s = output32 put n t := by
  unfold output32
  congr 1
  funext i
  rw [← lowHalves_getD, ← lowHalves_getD, h]

theorem Alike.output_eq {type : HashType} {s t : List UInt64}
    (h : type.Alike s t) : type.output s = type.output t := by
  cases type with
  | sha512 => exact congrArg output64 h
  | _ => exact output32_eq h _ _

end HashType

/-! ## What a context holds -/

namespace HashContext

/-- The context has absorbed the first blocks of the message, and has the rest
of it in front of `pos` in its buffer. -/
structure Holds (type : HashType) (ctx : HashContext) (pos : ℕ)
    (msg : List UInt8) : Prop where
  buf_length : ctx.buf.length = maxBlockSize
  pos_le : pos ≤ type.blockSize
  split : ∃ k blocks, blocks.length = k * type.blockSize ∧
    msg = blocks ++ ctx.buf.take pos ∧
    type.Alike ctx.state
      (absorb type.blockSize type.transform (hashInit type).state blocks)

namespace Holds

variable {type : HashType} {ctx : HashContext} {pos : ℕ} {msg : List UInt8}

theorem length_mod (h : ctx.Holds type pos msg) :
    msg.length % type.blockSize = pos % type.blockSize := by
  obtain ⟨k, blocks, hblocks, rfl, -⟩ := h.split
  have hpos := h.pos_le
  have hsize := type.blockSize_le
  have hbuf := h.buf_length
  rw [List.length_append, hblocks, List.length_take_of_le (by omega),
    Nat.mul_add_mod_self_right]

/-- The position is that of the message as long as the block is not full. -/
theorem pos_eq (h : ctx.Holds type pos msg) (hlt : pos < type.blockSize) :
    msg.length % type.blockSize = pos := by
  rw [h.length_mod, Nat.mod_eq_of_lt hlt]

theorem state_length (h : ctx.Holds type pos msg) : ctx.state.length = 8 := by
  obtain ⟨k, blocks, -, -, halike⟩ := h.split
  have hinit : (hashInit type).state.length = 8 := by cases type <;> rfl
  exact halike.length_eq.trans (type.absorb_length hinit blocks)

theorem setCount (h : ctx.Holds type pos msg) (count : UInt64) :
    { ctx with bytecount := count }.Holds type pos msg :=
  ⟨h.buf_length, h.pos_le, h.split⟩

/-- A copy to the position. Of what is copied the part counts that is meant to
belong to the message. -/
theorem copy (h : ctx.Holds type pos msg) (data : List UInt8) (k : ℕ)
    (hdata : pos + data.length ≤ type.blockSize) (hk : k ≤ data.length) :
    ∃ buf, copyInto ctx.buf pos data = .ok buf ∧
      { ctx with buf := buf }.Holds type (pos + k) (msg ++ data.take k) := by
  obtain ⟨n, blocks, hblocks, hmsg, halike⟩ := h.split
  have hsize := type.blockSize_le
  have hbuf := h.buf_length
  have hfront : (ctx.buf.take pos).length = pos :=
    List.length_take_of_le (by omega)
  refine ⟨_, copyInto_of_le (by omega), ?_, by omega, n, blocks, hblocks, ?_,
    halike⟩
  · simp only [List.length_append, List.length_drop, hfront]
    omega
  · rw [hmsg, List.append_assoc]
    congr 1
    rw [List.take_append, List.take_take, Nat.min_eq_right (Nat.le_add_right ..),
      hfront, Nat.add_sub_cancel_left, List.take_append_of_le_length hk]

theorem append (h : ctx.Holds type pos msg) (data : List UInt8)
    (hdata : pos + data.length ≤ type.blockSize) :
    ∃ buf, copyInto ctx.buf pos data = .ok buf ∧
      { ctx with buf := buf }.Holds type (pos + data.length) (msg ++ data) := by
  obtain ⟨buf, hcopy, hbuf⟩ := h.copy data data.length hdata le_rfl
  exact ⟨buf, hcopy, by rwa [List.take_length] at hbuf⟩

/-- A full block may be taken by any transform that is as good as the one of
the algorithm. -/
theorem full (h : ctx.Holds type type.blockSize msg) {state : List UInt64}
    (hstate : type.Alike state
      (type.transform ctx.state (ctx.buf.take type.blockSize))) :
    { ctx with state := state }.Holds type 0 msg := by
  obtain ⟨k, blocks, hblocks, hmsg, halike⟩ := h.split
  have hsize := type.blockSize_le
  have hbuf := h.buf_length
  have hblock : (ctx.buf.take type.blockSize).length = type.blockSize :=
    List.length_take_of_le (by omega)
  refine ⟨h.buf_length, Nat.zero_le _, k + 1, msg, ?_, by simp, ?_⟩
  · rw [hmsg, List.length_append, hblocks, hblock, Nat.succ_mul]
  · rw [hmsg, absorb_append _ type.blockSize_pos k _ hblocks,
      absorb_single _ _ type.blockSize_pos hblock]
    exact hstate.trans (halike.transform _)

end Holds

/-- What a write leaves: a context that holds the message, and knows how long
it is. -/
structure Absorbed (type : HashType) (ctx : HashContext) (msg : List UInt8) :
    Prop where
  bytecount : ctx.bytecount = .ofNat msg.length
  holds : ctx.Holds type (msg.length % type.blockSize) msg

end HashContext

theorem hashInit_absorbed (type : HashType) : (hashInit type).Absorbed type [] := by
  have hbuf : (hashInit type).buf.length = maxBlockSize := by cases type <;> rfl
  have hcount : (hashInit type).bytecount = 0 := by cases type <;> rfl
  refine ⟨hcount, hbuf, Nat.zero_le _, 0, [], by simp, by simp, ?_⟩
  rw [absorb_nil]
  exact .refl type _

/-! ## Write -/

/-- A transform, and one for many blocks where there is one, that compute what
the transform of the algorithm does to the eight words of a state. -/
structure Implements (type : HashType) (transform : Transform)
    (accel : Option Transform) : Prop where
  transform : ∀ s block, s.length = 8 → block.length = type.blockSize →
    type.Alike (transform s block) (type.transform s block)
  accel : ∀ x86 ∈ accel, ∀ s data, s.length = 8 → type.blockSize ∣ data.length →
    type.Alike (x86 s data) (absorb type.blockSize type.transform s data)

/-- The transform of the algorithm itself, or the one that takes its place. -/
theorem implements_getD {type : HashType} {accel : Option Transform}
    (h : ∀ x86 ∈ accel, ∀ s data, s.length = 8 → type.blockSize ∣ data.length →
      type.Alike (x86 s data) (absorb type.blockSize type.transform s data)) :
    Implements type (accel.getD type.transform) accel := by
  refine ⟨fun s block hs hblock => ?_, h⟩
  cases accel with
  | none => exact .refl type _
  | some x86 =>
      have halike := h x86 rfl s block hs (hblock ▸ dvd_rfl)
      rwa [absorb_single _ _ type.blockSize_pos hblock] at halike

theorem implements_none (type : HashType) : Implements type type.transform none :=
  ⟨fun s _ _ _ => .refl type _, fun x86 h => by cases h⟩

theorem blockLoop_eq {n : ℕ} (hn : 0 < n) (f : Transform) (buf : List UInt8) :
    ∀ (fuel : ℕ) (state : List UInt64) (off len : ℕ), len < fuel →
      off + len ≤ buf.length →
      blockLoop n f buf fuel state off len
        = .ok (absorb n f state ((buf.drop off).take len),
            off + len / n * n, len % n)
  | 0, _, _, _, hfuel, _ => absurd hfuel (Nat.not_lt_zero _)
  | fuel + 1, state, off, len, hfuel, hbuf => by
      rw [blockLoop]
      split
      case isTrue hle =>
          have hblock : ((buf.drop off).take n).length = n :=
            List.length_take_of_le (by rw [List.length_drop]; omega)
          have hsplit : (buf.drop off).take len
              = (buf.drop off).take n ++ (buf.drop (off + n)).take (len - n) := by
            conv_lhs => rw [show len = n + (len - n) by omega]
            rw [List.take_add, List.drop_drop]
          have hoff : off + n + (len - n) / n * n = off + len / n * n := by
            rw [Nat.div_eq_sub_div hn hle, Nat.succ_mul]
            omega
          rw [loadN_of_le (by omega), C.ok_bind,
            blockLoop_eq hn f buf fuel _ _ _ (by omega) (by omega), hsplit,
            absorb_block f state hn hblock, hoff, ← Nat.mod_eq_sub_mod hle]
      case isFalse hgt =>
          have hlt : len < n := Nat.lt_of_not_le hgt
          rw [absorb_of_lt f state (lt_of_le_of_lt (List.length_take_le _ _) hlt),
            Nat.div_eq_of_lt hlt, Nat.mod_eq_of_lt hlt, Nat.zero_mul]
          rfl

section Write

variable {type : HashType} {transform : Transform} {accel : Option Transform}
  {ctx : HashContext} {msg : List UInt8}

theorem wholeBlocks_alike (himp : Implements type transform accel)
    {state : List UInt64} (hstate : state.length = 8) {buf : List UInt8}
    {off len : ℕ} (hbuf : off + len ≤ buf.length) :
    ∃ state', wholeBlocks type.blockSize transform accel buf state off len
        = .ok (state', off + len / type.blockSize * type.blockSize,
            len % type.blockSize) ∧
      type.Alike state' (absorb type.blockSize type.transform state
        ((buf.drop off).take len)) := by
  have hpos := type.blockSize_pos
  have hdata : ((buf.drop off).take len).length = len :=
    List.length_take_of_le (by rw [List.length_drop]; omega)
  cases accel with
  | none =>
      refine ⟨_, blockLoop_eq hpos transform buf _ _ _ _ (by omega) hbuf, ?_⟩
      have hboth := absorb_rel transform
        (R := fun s t => t.length = 8 ∧ type.Alike s t)
        (fun s t block hblock h => ⟨type.transform_length h.1 block,
          (himp.transform s block (h.2.length_eq.trans h.1) hblock).trans
            (h.2.transform block)⟩)
        ⟨hstate, .refl type state⟩ ((buf.drop off).take len)
      exact hboth.2
  | some x86 =>
      have hle := Nat.div_mul_le_self len type.blockSize
      have hmod := Nat.div_add_mod' len type.blockSize
      by_cases hblocks : type.blockSize ≤ len
      · have hwhole : ((buf.drop off).take
            (len / type.blockSize * type.blockSize)).length
            = len / type.blockSize * type.blockSize :=
          List.length_take_of_le (by rw [List.length_drop]; omega)
        have halike := himp.accel x86 rfl state _ hstate
          (hwhole ▸ Nat.dvd_mul_left ..)
        refine ⟨x86 state ((buf.drop off).take
          (len / type.blockSize * type.blockSize)), ?_, ?_⟩
        · simp only [wholeBlocks, accelBlocks, if_pos hblocks]
          rw [loadN_of_le (by omega), C.ok_bind]
          rw [show len - len / type.blockSize * type.blockSize
            = len % type.blockSize by omega]
          rfl
        · rw [← absorb_take _ _ hpos, hdata, List.take_take, Nat.min_eq_left hle]
          exact halike
      · have hlt : len < type.blockSize := Nat.lt_of_not_le hblocks
        refine ⟨state, ?_, ?_⟩
        · rw [Nat.div_eq_of_lt hlt, Nat.mod_eq_of_lt hlt, Nat.zero_mul]
          exact if_neg hblocks
        · rw [absorb_of_lt _ _ (by omega)]
          exact .refl type state

/-- Behind a block boundary a write takes the whole blocks and keeps the
rest. -/
theorem writeBlocks_holds (himp : Implements type transform accel)
    (hctx : ctx.Holds type 0 msg) (buf : List UInt8) (off len : ℕ)
    (hbuf : off + len ≤ buf.length) :
    ∃ ctx', writeBlocks type.blockSize transform accel buf off len ctx
        = .ok ctx' ∧
      ctx'.bytecount = ctx.bytecount ∧
      ctx'.Holds type (len % type.blockSize)
        (msg ++ (buf.drop off).take len) := by
  have hpos := type.blockSize_pos
  have hmod := Nat.div_add_mod' len type.blockSize
  have hlt := Nat.mod_lt len hpos
  set whole := len / type.blockSize * type.blockSize with hwhole
  obtain ⟨k, blocks, hblocks, hmsg, halike⟩ := hctx.split
  rw [List.take_zero, List.append_nil] at hmsg
  obtain ⟨state, hstate, halike'⟩ := wholeBlocks_alike himp hctx.state_length hbuf
  -- the context behind the whole blocks
  have htaken : ((buf.drop off).take whole).length = whole :=
    List.length_take_of_le (by rw [List.length_drop]; omega)
  have hholds : { ctx with state := state }.Holds type 0
      (msg ++ (buf.drop off).take whole) := by
    refine ⟨hctx.buf_length, Nat.zero_le _, k + len / type.blockSize,
      msg ++ (buf.drop off).take whole, ?_, by simp, ?_⟩
    · rw [List.length_append, hmsg, hblocks, htaken, hwhole, Nat.add_mul]
    · rw [absorb_append _ hpos k _ (hmsg ▸ hblocks), hmsg]
      refine (halike'.trans ?_)
      rw [← absorb_take _ _ hpos, List.length_take_of_le
        (by rw [List.length_drop]; omega), ← hwhole, List.take_take,
        Nat.min_eq_left (by omega)]
      exact absorb_rel _ (R := type.Alike)
        (fun s t block _ h => h.transform block) halike _
  have hrest : ((buf.drop (off + whole)).take (len % type.blockSize)).length
      = len % type.blockSize :=
    List.length_take_of_le (by rw [List.length_drop]; omega)
  obtain ⟨buf', hcopy, hfinal⟩ := hholds.append
    ((buf.drop (off + whole)).take (len % type.blockSize)) (by omega)
  refine ⟨{ ctx with state := state, buf := buf' }, ?_, rfl, ?_⟩
  · unfold writeBlocks
    rw [hstate, C.ok_bind]
    simp only [← hwhole]
    rw [loadN_of_le (by omega), C.ok_bind, hcopy]
    rfl
  · rw [hrest, Nat.zero_add, List.append_assoc] at hfinal
    rwa [← List.drop_drop, ← List.take_add, hmod] at hfinal

namespace HashContext.Absorbed

/-- The residue that the write and final functions take from the count. -/
theorem residue (h : ctx.Absorbed type msg) :
    ctx.bytecount.toNat &&& (type.blockSize - 1)
      = msg.length % type.blockSize := by
  have hdvd : type.blockSize ∣ 2 ^ 64 := by cases type <;> decide
  rw [type.and_blockSize, h.bytecount, UInt64.toNat_ofNat']
  exact Nat.mod_mod_of_dvd _ hdvd

/-- A context that holds some more bytes and has counted them. -/
theorem of_holds (h : ctx.Absorbed type msg) {ctx' : HashContext}
    {data : List UInt8} {pos : ℕ}
    (hcount : ctx'.bytecount = ctx.bytecount + .ofNat data.length)
    (hholds : ctx'.Holds type pos (msg ++ data)) (hpos : pos < type.blockSize) :
    ctx'.Absorbed type (msg ++ data) := by
  refine ⟨?_, (hholds.pos_eq hpos).symm ▸ hholds⟩
  rw [hcount, h.bytecount, List.length_append, UInt64.ofNat_add]

end HashContext.Absorbed

/-- What completes the block is copied, and the block transformed. -/
theorem completeBlock_holds (himp : Implements type transform accel) {num : ℕ}
    (hctx : ctx.Holds type num msg) (buf : List UInt8)
    (hbuf : type.blockSize - num ≤ buf.length) :
    ∃ ctx', completeBlock type.blockSize transform num buf ctx = .ok ctx' ∧
      ctx'.bytecount = ctx.bytecount ∧
      ctx'.Holds type 0 (msg ++ buf.take (type.blockSize - num)) := by
  have hnum := hctx.pos_le
  have hsize := type.blockSize_le
  have hdata : (buf.take (type.blockSize - num)).length = type.blockSize - num :=
    List.length_take_of_le hbuf
  obtain ⟨filled, hcopy, hfilled⟩ :=
    hctx.append (buf.take (type.blockSize - num)) (by omega)
  rw [hdata, Nat.add_sub_cancel' hnum] at hfilled
  have hlen : filled.length = maxBlockSize := hfilled.buf_length
  have hblock : (filled.take type.blockSize).length = type.blockSize :=
    List.length_take_of_le (by omega)
  refine ⟨{ ctx with
    buf := filled
    state := transform ctx.state (filled.take type.blockSize) }, ?_, rfl,
    hfilled.full (himp.transform ctx.state _ hctx.state_length hblock)⟩
  unfold completeBlock
  rw [loadN_of_le (by omega), C.ok_bind, List.drop_zero, hcopy, C.ok_bind,
    loadN_of_le (by omega), C.ok_bind, List.drop_zero]
  rfl

theorem alignedWrite_absorbed (himp : Implements type transform accel)
    (hctx : ctx.Absorbed type msg) (hnum : msg.length % type.blockSize = 0)
    {buf : List UInt8} {len : ℕ} (hbuf : len ≤ buf.length) :
    ∃ ctx', writeBlocks type.blockSize transform accel buf 0 len
        { ctx with bytecount := ctx.bytecount + .ofNat len } = .ok ctx' ∧
      ctx'.Absorbed type (msg ++ buf.take len) := by
  have hholds := (hnum ▸ hctx.holds).setCount (ctx.bytecount + UInt64.ofNat len)
  obtain ⟨ctx', hrun, hcount, hholds'⟩ :=
    writeBlocks_holds himp hholds buf 0 len (by omega)
  rw [List.drop_zero] at hholds'
  refine ⟨ctx', hrun, hctx.of_holds ?_ hholds' (Nat.mod_lt _ type.blockSize_pos)⟩
  rw [hcount, List.length_take_of_le hbuf]

/-- A write that completes the block that was begun -/
theorem completingWrite_absorbed (himp : Implements type transform accel)
    (hctx : ctx.Absorbed type msg) {buf : List UInt8} {len : ℕ}
    (hbuf : len ≤ buf.length)
    (hlong : type.blockSize - msg.length % type.blockSize ≤ len) :
    ∃ ctx', (do
        let ctx ← completeBlock type.blockSize transform
          (msg.length % type.blockSize) buf
          { ctx with bytecount := ctx.bytecount + UInt64.ofNat len }
        writeBlocks type.blockSize transform accel buf
          (type.blockSize - msg.length % type.blockSize)
          (len - (type.blockSize - msg.length % type.blockSize)) ctx) = .ok ctx' ∧
      ctx'.Absorbed type (msg ++ buf.take len) := by
  set num := msg.length % type.blockSize with hnum
  obtain ⟨ctx₁, hrun₁, hcount₁, hholds₁⟩ := completeBlock_holds himp
    (hctx.holds.setCount (ctx.bytecount + UInt64.ofNat len)) buf (by omega)
  obtain ⟨ctx₂, hrun₂, hcount₂, hholds₂⟩ := writeBlocks_holds himp hholds₁ buf
    (type.blockSize - num) (len - (type.blockSize - num)) (by omega)
  have hdata : (msg ++ buf.take (type.blockSize - num))
      ++ (buf.drop (type.blockSize - num)).take (len - (type.blockSize - num))
      = msg ++ buf.take len := by
    rw [List.append_assoc, ← List.take_add, Nat.add_sub_cancel' hlong]
  rw [hdata] at hholds₂
  refine ⟨ctx₂, ?_, hctx.of_holds ?_ hholds₂ (Nat.mod_lt _ type.blockSize_pos)⟩
  · rw [hrun₁, C.ok_bind, hrun₂]
  · rw [hcount₂, hcount₁, List.length_take_of_le hbuf]

/-- **A write of the SHA family** appends the chunk to the message. -/
theorem shaWrite_absorbed (himp : Implements type transform accel)
    (hctx : ctx.Absorbed type msg) {buf : List UInt8} {len : ℕ}
    (hbuf : len ≤ buf.length) :
    ∃ ctx', shaWrite type.blockSize transform accel buf len ctx = .ok ctx' ∧
      ctx'.Absorbed type (msg ++ buf.take len) := by
  simp only [shaWrite, hctx.residue]
  split
  case isTrue hnum => exact alignedWrite_absorbed himp hctx hnum hbuf
  case isFalse =>
      split
      case isFalse hlong =>
          exact completingWrite_absorbed himp hctx hbuf (Nat.le_of_not_lt hlong)
      case isTrue hshort =>
          have hdata : (buf.take len).length = len := List.length_take_of_le hbuf
          obtain ⟨filled, hcopy, hfilled⟩ :=
            hctx.holds.append (buf.take len) (by omega)
          refine ⟨{ ctx with
            buf := filled
            bytecount := ctx.bytecount + .ofNat len }, ?_, ?_⟩
          · rw [loadN_of_le (by omega), C.ok_bind, List.drop_zero, hcopy]
            rfl
          · refine hctx.of_holds ?_ (hfilled.setCount _) (by omega)
            rw [hdata]

end Write

/-- The pointers that `md5_write` may be given behind a message of `n` bytes:
where it copies what would fill the block, that can be read. -/
def Chunk.Fills (chunk : Chunk) (n : ℕ) : Prop :=
  0 < n % 64 → n % 64 + chunk.len < 64 → 64 - n % 64 ≤ chunk.mem.length

/-- **The MD5 write** appends the chunk as well, if it may read on where the
chunk does not fill the block. -/
theorem md5Write_absorbed {ctx : HashContext} {msg : List UInt8}
    (hctx : ctx.Absorbed .md5 msg) (chunk : Chunk) :
    (chunk.Fills msg.length →
      ∃ ctx', md5Write chunk.mem chunk.len ctx = .ok ctx' ∧
        ctx'.Absorbed .md5 (msg ++ chunk.data)) ∧
    (¬chunk.Fills msg.length →
      md5Write chunk.mem chunk.len ctx = .error .outOfBounds) := by
  have hle := chunk.len_le
  have hnum : ctx.bytecount.toNat &&& (64 - 1) = msg.length % 64 := hctx.residue
  simp only [md5Write, hnum]
  split
  case isTrue hzero =>
      refine ⟨fun _ => alignedWrite_absorbed (implements_none .md5) hctx hzero hle,
        fun hfills => absurd (fun h => ?_) hfills⟩
      omega
  case isFalse hzero =>
      split
      case isFalse hlong =>
          refine ⟨fun _ => completingWrite_absorbed (implements_none .md5) hctx hle
            (Nat.le_of_not_lt hlong), fun hfills => absurd (fun _ h => ?_) hfills⟩
          omega
      case isTrue hshort =>
          have hread : chunk.Fills msg.length
              ↔ 64 - msg.length % 64 ≤ chunk.mem.length :=
            ⟨fun h => h (by omega) (by omega), fun h _ _ => h⟩
          constructor
          · intro hfills
            have hmem := hread.mp hfills
            have hdata : (chunk.mem.take (64 - msg.length % 64)).length
                = 64 - msg.length % 64 := List.length_take_of_le hmem
            -- of what is copied the chunk is the front part
            obtain ⟨filled, hcopy, hfilled⟩ := hctx.holds.copy
              (chunk.mem.take (64 - msg.length % 64)) chunk.len
              (by rw [hdata]; show msg.length % 64 + _ ≤ 64; omega) (by omega)
            rw [List.take_take, Nat.min_eq_left (by omega)] at hfilled
            refine ⟨{ ctx with
              buf := filled
              bytecount := ctx.bytecount + .ofNat chunk.len }, ?_, ?_⟩
            · rw [loadN_of_le (by omega), C.ok_bind, List.drop_zero]
              rw [show copyInto ctx.buf (msg.length % 64) _ = _ from hcopy]
              rfl
            · refine hctx.of_holds ?_ (hfilled.setCount _)
                (show msg.length % 64 + chunk.len < 64 by omega)
              rw [chunk.data_length]
          · intro hfills
            have hmem := mt hread.mpr hfills
            rw [loadN, if_neg (by omega)]
            rfl

/-! ## Final -/

theorem littleEndian64_eq (v : UInt64) : littleEndian64 v = leBytes 8 v.toNat := by
  have hbyte (i : UInt64) (hi : i.toNat < 64) :
      (v >>> i).toUInt8 = UInt8.ofNat (v.toNat / 2 ^ i.toNat) := by
    apply UInt8.toNat_inj.mp
    rw [UInt64.toNat_toUInt8, UInt64.toNat_shiftRight, UInt8.toNat_ofNat',
      Nat.shiftRight_eq_div_pow, Nat.mod_eq_of_lt hi]
  have hfirst : v.toUInt8 = UInt8.ofNat v.toNat := by simp
  simp only [littleEndian64, List.map_cons, List.map_nil, leBytes,
    Nat.div_div_eq_div_mul]
  rw [hfirst, hbyte 8 (by decide), hbyte 16 (by decide), hbyte 24 (by decide),
    hbyte 32 (by decide), hbyte 40 (by decide), hbyte 48 (by decide),
    hbyte 56 (by decide)]
  rfl

namespace HashType

theorem lengthField_length (type : HashType) (bits : ℕ) :
    (type.lengthField bits).length = type.lengthSize := by
  cases type <;> simp [lengthField, lengthSize, leBytes_length]

theorem output_length (type : HashType) (state : List UInt64) :
    (type.output state).length = type.hashCount := by
  cases type <;> rfl

theorem hashCount_le (type : HashType) : type.hashCount ≤ maxBlockSize := by
  cases type <;> decide

end HashType

section Final

variable {type : HashType} {transform : Transform} {accel : Option Transform}
  {ctx : HashContext} {msg : List UInt8} {pos : ℕ}

theorem HashContext.Holds.store (h : ctx.Holds type pos msg)
    (hpos : pos < type.blockSize) (b : UInt8) :
    ∃ buf, Nawam.store ctx.buf pos b = .ok buf ∧
      { ctx with buf := buf }.Holds type (pos + 1) (msg ++ [b]) := by
  have hsize := type.blockSize_le
  have hbuf := h.buf_length
  obtain ⟨buf, hcopy, hholds⟩ := h.append [b] hpos
  refine ⟨buf, ?_, hholds⟩
  rw [← hcopy, Nawam.store, if_pos (by omega),
    copyInto_of_le (by simp only [List.length_singleton]; omega),
    List.set_eq_take_append_cons_drop, if_pos (by omega)]
  rfl

theorem transformBuf_holds (himp : Implements type transform accel)
    (h : ctx.Holds type type.blockSize msg) :
    ∃ ctx', transformBuf type.blockSize transform ctx = .ok ctx' ∧
      ctx'.Holds type 0 msg := by
  have hsize := type.blockSize_le
  have hbuf := h.buf_length
  have hblock : (ctx.buf.take type.blockSize).length = type.blockSize :=
    List.length_take_of_le (by omega)
  refine ⟨_, ?_, h.full (himp.transform ctx.state _ h.state_length hblock)⟩
  rw [transformBuf, loadN_of_le (by omega), C.ok_bind, List.drop_zero]
  rfl

/-- The loop puts zeros behind the message until the position is that of the
length field, of this block or of the next one. -/
theorem padLoop_holds (himp : Implements type transform accel) {stop : ℕ}
    (hstop : 0 < stop ∧ stop < type.blockSize) :
    ∀ (zeros fuel : ℕ) {pos : ℕ} {ctx : HashContext} {msg : List UInt8},
      zeros < fuel → 0 < pos → ctx.Holds type pos msg →
      (pos + zeros = stop ∨ pos + zeros = stop + type.blockSize ∧ stop < pos) →
      ∃ ctx', padLoop type.blockSize stop transform fuel pos ctx = .ok ctx' ∧
        ctx'.Holds type stop (msg ++ .replicate zeros 0)
  | _, 0, _, _, _, hfuel, _, _, _ => absurd hfuel (Nat.not_lt_zero _)
  | 0, fuel + 1, pos, ctx, msg, _, _, hholds, hzeros => by
      have hle := hholds.pos_le
      have hpos : pos = stop := by omega
      refine ⟨ctx, if_pos hpos, ?_⟩
      rwa [List.replicate_zero, List.append_nil, ← hpos]
  | zeros + 1, fuel + 1, pos, ctx, msg, hfuel, hpos, hholds, hzeros => by
      have hle := hholds.pos_le
      -- where the zero goes, and the context with a full block taken
      obtain ⟨ctx₁, hrun, hholds₁⟩ : ∃ ctx₁,
          (if pos % type.blockSize = 0
            then transformBuf type.blockSize transform ctx
            else .ok ctx) = .ok ctx₁ ∧
          ctx₁.Holds type (pos % type.blockSize) msg := by
        by_cases hfull : pos = type.blockSize
        · subst hfull
          obtain ⟨ctx₁, hrun, hholds₁⟩ := transformBuf_holds himp hholds
          rw [Nat.mod_self]
          exact ⟨ctx₁, hrun, hholds₁⟩
        · rw [Nat.mod_eq_of_lt (by omega)]
          exact ⟨ctx, if_neg (by omega), hholds⟩
      have hmod := Nat.mod_lt pos type.blockSize_pos
      obtain ⟨buf, hstore, hholds₂⟩ := hholds₁.store hmod 0
      have hnext : pos % type.blockSize + 1 + zeros = stop ∨
          pos % type.blockSize + 1 + zeros = stop + type.blockSize ∧
            stop < pos % type.blockSize + 1 := by
        by_cases hfull : pos = type.blockSize
        · rw [hfull, Nat.mod_self]
          omega
        · rw [Nat.mod_eq_of_lt (by omega)]
          omega
      obtain ⟨ctx', hloop, hholds'⟩ := padLoop_holds himp hstop zeros fuel
        (by omega) (Nat.succ_pos _) hholds₂ hnext
      refine ⟨ctx', ?_, ?_⟩
      · rw [padLoop, if_neg (by omega), type.and_blockSize]
        simp only [hrun, hstore, C.ok_bind]
        exact hloop
      · rwa [List.append_assoc] at hholds'

/-- The zeros take the position behind the 0x80 to that of the length field. -/
theorem HashType.padding_zeros (type : HashType) (n : ℕ) (field : List UInt8) :
    ∃ zeros, type.paddingWith n field = [0x80] ++ .replicate zeros 0 ++ field ∧
      zeros < type.blockSize ∧
      (n % type.blockSize + 1 + zeros = type.blockSize - type.lengthSize ∨
        n % type.blockSize + 1 + zeros
            = type.blockSize - type.lengthSize + type.blockSize ∧
          type.blockSize - type.lengthSize < n % type.blockSize + 1) := by
  refine ⟨_, rfl, Nat.mod_lt _ type.blockSize_pos, ?_⟩
  cases type <;> simp only [HashType.blockSize, HashType.lengthSize] <;> omega

/-- A full block behind the padding is the last one. -/
theorem finishBuf_output (himp : Implements type transform accel)
    (h : ctx.Holds type type.blockSize msg) :
    ∃ ctx', finishBuf type.blockSize transform type.output ctx = .ok ctx' ∧
      loadN ctx'.buf 0 type.hashCount = .ok (type.output
        (absorb type.blockSize type.transform (hashInit type).state msg)) := by
  have hcount := type.hashCount_le
  obtain ⟨ctx₁, hrun, hholds⟩ := transformBuf_holds himp h
  have hbuf := hholds.buf_length
  obtain ⟨k, blocks, -, hmsg, halike⟩ := hholds.split
  rw [List.take_zero, List.append_nil] at hmsg
  have hout := type.output_length ctx₁.state
  refine ⟨{ ctx₁ with
    buf := type.output ctx₁.state ++ ctx₁.buf.drop type.hashCount }, ?_, ?_⟩
  · rw [finishBuf, hrun, C.ok_bind, copyInto_of_le (by omega), hout,
      List.take_zero, List.nil_append, Nat.zero_add]
    rfl
  · rw [hmsg, ← halike.output_eq,
      loadN_of_le (by simp only [List.length_append]; omega),
      List.drop_zero, List.take_left' hout]

/-- **A final function of the SHA family** pads the message with the length
field that it makes of the count. -/
theorem shaFinal_output (himp : Implements type transform accel)
    (hctx : ctx.Absorbed type msg) (length : UInt64 → List UInt8)
    (hfield : (length ctx.bytecount).length = type.lengthSize) :
    ∃ ctx', shaFinal type.blockSize transform length type.output ctx = .ok ctx' ∧
      loadN ctx'.buf 0 type.hashCount = .ok (type.output
        (absorb type.blockSize type.transform (hashInit type).state
          (msg ++ type.paddingWith msg.length (length ctx.bytecount)))) := by
  have hsize : 0 < type.blockSize - type.lengthSize ∧
      type.blockSize - type.lengthSize < type.blockSize := by
    cases type <;> decide
  obtain ⟨zeros, hpadding, hzeros, hstop⟩ :=
    type.padding_zeros msg.length (length ctx.bytecount)
  obtain ⟨buf₁, hstore, hholds₁⟩ :=
    hctx.holds.store (Nat.mod_lt _ type.blockSize_pos) 0x80
  obtain ⟨ctx₂, hloop, hholds₂⟩ := padLoop_holds himp hsize zeros
    (2 * type.blockSize) (by omega) (Nat.succ_pos _) hholds₁ hstop
  obtain ⟨buf₃, hcopy, hholds₃⟩ := hholds₂.append (length ctx.bytecount) (by omega)
  rw [hfield, Nat.sub_add_cancel (by omega), List.append_assoc,
    List.append_assoc, ← List.append_assoc [0x80], ← hpadding] at hholds₃
  obtain ⟨ctx', hfinish, houtput⟩ := finishBuf_output himp hholds₃
  refine ⟨ctx', ?_, houtput⟩
  simp only [shaFinal, hctx.residue, hfield, hstore, C.ok_bind, hloop, hcopy,
    hfinish]

/-- It leaves the digest where the field is the length in bits. -/
theorem shaFinal_digest (himp : Implements type transform accel)
    (hctx : ctx.Absorbed type msg) (length : UInt64 → List UInt8)
    (hlength : length ctx.bytecount = type.lengthField (8 * msg.length)) :
    ∃ ctx', shaFinal type.blockSize transform length type.output ctx = .ok ctx' ∧
      loadN ctx'.buf 0 type.hashCount = .ok (type.digest msg) := by
  obtain ⟨ctx', hrun, houtput⟩ := shaFinal_output himp hctx length
    (by rw [hlength, type.lengthField_length])
  rw [hlength] at houtput
  exact ⟨ctx', hrun, houtput⟩

/-- Either way the zeros go up to the length field. -/
theorem md5Pad_holds {ctx : HashContext} {msg : List UInt8} {pos zeros : ℕ}
    (hctx : ctx.Holds .md5 pos msg) (hpos : 0 < pos)
    (hzeros : pos + zeros = 56 ∨ pos + zeros = 56 + 64 ∧ 56 < pos) :
    ∃ ctx', md5Pad (64 - pos) ctx = .ok ctx' ∧
      ctx'.Holds .md5 56 (msg ++ .replicate zeros 0) := by
  have hle : pos ≤ 64 := hctx.pos_le
  have hback : 64 - (64 - pos) = pos := by omega
  unfold md5Pad
  split
  case isTrue hfew =>
      have hsplit : List.replicate zeros (0 : UInt8)
          = .replicate (64 - pos) 0 ++ .replicate 56 0 := by
        rw [List.replicate_append_replicate]
        congr 1
        omega
      obtain ⟨buf₁, hcopy₁, hholds₁⟩ := hctx.append
        (.replicate (64 - pos) 0)
        (by rw [List.length_replicate]; show pos + (64 - pos) ≤ 64; omega)
      rw [List.length_replicate, Nat.add_sub_cancel' hle] at hholds₁
      obtain ⟨ctx₂, hrun, hholds₂⟩ := transformBuf_holds (implements_none .md5) hholds₁
      obtain ⟨buf₃, hcopy₃, hholds₃⟩ := hholds₂.append
        (.replicate 56 0) (by decide)
      refine ⟨{ ctx₂ with buf := buf₃ }, ?_, ?_⟩
      · rw [hback, hcopy₁, C.ok_bind,
          show transformBuf 64 md5Transform _ = .ok ctx₂ from hrun, C.ok_bind,
          hcopy₃]
        rfl
      · rwa [List.append_assoc, ← hsplit] at hholds₃
  case isFalse hmany =>
      have hcount : zeros = 64 - pos - 8 := by omega
      obtain ⟨buf₁, hcopy₁, hholds₁⟩ := hctx.append
        (.replicate zeros 0)
        (by rw [List.length_replicate]; show pos + zeros ≤ 64; omega)
      rw [List.length_replicate, show pos + zeros = 56 by omega] at hholds₁
      refine ⟨{ ctx with buf := buf₁ }, ?_, hholds₁⟩
      rw [hback, ← hcount, hcopy₁]
      rfl

/-- The count of bits, of a message that is not too long. -/
theorem HashContext.Absorbed.bitcount (hctx : ctx.Absorbed type msg)
    (hlen : msg.length < 2 ^ 61) :
    (ctx.bytecount <<< 3).toNat = 8 * msg.length := by
  rw [hctx.bytecount, UInt64.toNat_shiftLeft, UInt64.toNat_ofNat',
    Nat.mod_eq_of_lt (lt_trans hlen (by decide)), Nat.shiftLeft_eq]
  rw [show (3 : UInt64).toNat % 64 = 3 from rfl]
  omega

/-- **The MD5 final** does so as well. -/
theorem md5Final_digest {ctx : HashContext} {msg : List UInt8}
    (hctx : ctx.Absorbed .md5 msg) (hlen : msg.length < 2 ^ 61) :
    ∃ ctx', md5Final ctx = .ok ctx' ∧
      loadN ctx'.buf 0 16 = .ok (HashType.md5.digest msg) := by
  have hnum : ctx.bytecount.toNat &&& (64 - 1) = msg.length % 64 := hctx.residue
  have hfield : littleEndian64 (ctx.bytecount <<< 3)
      = HashType.md5.lengthField (8 * msg.length) := by
    rw [littleEndian64_eq, hctx.bitcount hlen]
    rfl
  have hsize : (HashType.md5.lengthField (8 * msg.length)).length = 8 :=
    HashType.md5.lengthField_length _
  obtain ⟨zeros, hpadding, -, hzeros⟩ := HashType.md5.padding_zeros msg.length
    (HashType.md5.lengthField (8 * msg.length))
  obtain ⟨buf₁, hstore, hholds₁⟩ :=
    hctx.holds.store (Nat.mod_lt _ HashType.md5.blockSize_pos) 0x80
  obtain ⟨ctx₂, hpad, hholds₂⟩ := md5Pad_holds hholds₁ (Nat.succ_pos _) hzeros
  obtain ⟨buf₃, hcopy, hholds₃⟩ := hholds₂.append
    (HashType.md5.lengthField (8 * msg.length))
    (by rw [hsize]; decide)
  rw [hsize, List.append_assoc, List.append_assoc, ← List.append_assoc [0x80],
    ← hpadding] at hholds₃
  obtain ⟨ctx', hfinish, hdigest⟩ := finishBuf_output (implements_none .md5) hholds₃
  refine ⟨ctx', ?_, hdigest⟩
  have hcount : 64 - 1 - msg.length % 64
      = 64 - (msg.length % HashType.md5.blockSize + 1) := by
    show _ = 64 - (msg.length % 64 + 1)
    omega
  simp only [md5Final, hnum, hfield, hcount]
  rw [show Nawam.store ctx.buf (msg.length % 64) 0x80 = .ok buf₁ from hstore,
    C.ok_bind, hpad, C.ok_bind, hcopy, C.ok_bind]
  exact hfinish

end Final

/-! ## All algorithms -/

/-- The accelerated transforms compute, over any number of blocks, what the
portable ones do to the eight words of a state. -/
structure HashCpu.Sound (cpu : HashCpu) : Prop where
  sha1 : ∀ x86 ∈ cpu.sha1Accel, ∀ state data, state.length = 8 →
    64 ∣ data.length →
    lowHalves (x86 state data) = lowHalves (absorb 64 sha1TransformCc state data)
  sha256 : ∀ x86 ∈ cpu.sha256Accel, ∀ state data, state.length = 8 →
    64 ∣ data.length →
    lowHalves (x86 state data)
      = lowHalves (absorb 64 sha256TransformCc state data)

theorem leBytes_add (k : ℕ) : ∀ j v : ℕ,
    leBytes (j + k) v = leBytes j v ++ leBytes k (v / 256 ^ j)
  | 0, v => by simp [leBytes]
  | j + 1, v => by
      rw [Nat.add_right_comm, leBytes, leBytes, leBytes_add k j, List.cons_append,
        Nat.div_div_eq_div_mul, Nat.pow_succ']

section

variable {cpu : HashCpu} (hcpu : cpu.Sound) {type : HashType} {ctx : HashContext}
  {msg : List UInt8}
include hcpu

/-- **A write** of any algorithm. -/
theorem hashWrite_absorbed (hctx : ctx.Absorbed type msg) (chunk : Chunk) :
    ((type = .md5 → chunk.Fills msg.length) →
      ∃ ctx', hashWrite cpu type chunk.mem chunk.len ctx = .ok ctx' ∧
        ctx'.Absorbed type (msg ++ chunk.data)) ∧
    (¬(type = .md5 → chunk.Fills msg.length) →
      hashWrite cpu type chunk.mem chunk.len ctx = .error .outOfBounds) := by
  cases type with
  | md5 =>
      obtain ⟨hwrite, hfault⟩ := md5Write_absorbed hctx chunk
      exact ⟨fun h => hwrite (h rfl), fun h => hfault fun hfills => h fun _ => hfills⟩
  | sha1 =>
      exact ⟨fun _ => shaWrite_absorbed (implements_getD hcpu.sha1) hctx
        chunk.len_le, fun h => absurd (fun h => nomatch h) h⟩
  | sha256 =>
      exact ⟨fun _ => shaWrite_absorbed (implements_getD hcpu.sha256) hctx
        chunk.len_le, fun h => absurd (fun h => nomatch h) h⟩
  | sha512 =>
      exact ⟨fun _ => shaWrite_absorbed (implements_none .sha512) hctx
        chunk.len_le, fun h => absurd (fun h => nomatch h) h⟩

/-- A write out of a buffer in which a whole block can be read. -/
theorem hashWrite_roomy (hctx : ctx.Absorbed type msg) (chunk : Chunk)
    (hroom : msg = [] ∨ 64 ≤ chunk.mem.length) :
    ∃ ctx', hashWrite cpu type chunk.mem chunk.len ctx = .ok ctx' ∧
      ctx'.Absorbed type (msg ++ chunk.data) := by
  apply (hashWrite_absorbed hcpu hctx chunk).1
  intro _ hnum _
  rcases hroom with rfl | hroom
  · cases hnum
  · omega

/-- **A final function** of any algorithm. -/
theorem hashFinal_digest (hctx : ctx.Absorbed type msg)
    (hlen : msg.length < 2 ^ 61) :
    ∃ ctx', hashFinal cpu type ctx = .ok ctx' ∧
      loadN ctx'.buf 0 type.hashCount = .ok (type.digest msg) := by
  have hbits := hctx.bitcount hlen
  have hword : writeSwap64 (ctx.bytecount <<< 3)
      = (leBytes 8 (8 * msg.length)).reverse := by
    rw [writeSwap64, littleEndian64_eq, hbits]
  cases type with
  | md5 => exact md5Final_digest hctx hlen
  | sha1 =>
      exact shaFinal_digest (implements_getD hcpu.sha1) hctx
        (fun count => writeSwap64 (count <<< 3)) hword
  | sha256 =>
      exact shaFinal_digest (implements_getD hcpu.sha256) hctx
        (fun count => writeSwap64 (count <<< 3)) hword
  | sha512 =>
      refine shaFinal_digest (implements_none .sha512) hctx
        (fun count => writeSwap64 (count >>> 61) ++ writeSwap64 (count <<< 3)) ?_
      have hhigh : (ctx.bytecount >>> 61).toNat = 8 * msg.length / 256 ^ 8 := by
        rw [hctx.bytecount, UInt64.toNat_shiftRight, UInt64.toNat_ofNat',
          Nat.mod_eq_of_lt (lt_trans hlen (by decide)), Nat.shiftRight_eq_div_pow,
          show (61 : UInt64).toNat % 64 = 61 from rfl]
        omega
      show writeSwap64 (ctx.bytecount >>> 61) ++ writeSwap64 (ctx.bytecount <<< 3)
        = (leBytes (8 + 8) (8 * msg.length)).reverse
      rw [leBytes_add, List.reverse_append, hword, writeSwap64, littleEndian64_eq,
        hhigh]

theorem hashResult_digest (hctx : ctx.Absorbed type msg)
    (hlen : msg.length < 2 ^ 61) :
    hashResult cpu type ctx = .ok (type.digest msg) := by
  obtain ⟨ctx', hrun, hdigest⟩ := hashFinal_digest hcpu hctx hlen
  rw [hashResult, hrun, C.ok_bind, hdigest]

end

/-! ## Streams -/

/-- The pointers of a sequence of chunks behind a message of `n` bytes. -/
def AllFill : ℕ → List Chunk → Prop
  | _, [] => True
  | n, chunk :: chunks => chunk.Fills n ∧ AllFill (n + chunk.len) chunks

section

variable {cpu : HashCpu} (hcpu : cpu.Sound) {type : HashType}
include hcpu

/-- One write for each chunk, as far as none of them reads what it must not. -/
theorem hashChunks_absorbed : ∀ (chunks : List Chunk) {ctx : HashContext}
    {msg : List UInt8}, ctx.Absorbed type msg →
    ((type = .md5 → AllFill msg.length chunks) →
      ∃ ctx', hashChunks cpu type chunks ctx = .ok ctx' ∧
        ctx'.Absorbed type (msg ++ message chunks)) ∧
    (¬(type = .md5 → AllFill msg.length chunks) →
      hashChunks cpu type chunks ctx = .error .outOfBounds)
  | [], ctx, msg, hctx => by
      refine ⟨fun _ => ⟨ctx, rfl, ?_⟩, fun h => absurd (fun _ => trivial) h⟩
      simpa [message] using hctx
  | chunk :: chunks, ctx, msg, hctx => by
      obtain ⟨hwrite, hfault⟩ := hashWrite_absorbed hcpu hctx chunk
      by_cases hfills : type = .md5 → chunk.Fills msg.length
      · obtain ⟨ctx₁, hrun, hctx₁⟩ := hwrite hfills
        obtain ⟨hall, hsome⟩ := hashChunks_absorbed chunks hctx₁
        have hiff : (type = .md5 → AllFill msg.length (chunk :: chunks))
            ↔ (type = .md5 → AllFill (msg ++ chunk.data).length chunks) := by
          rw [List.length_append, chunk.data_length]
          exact ⟨fun h hmd5 => (h hmd5).2, fun h hmd5 => ⟨hfills hmd5, h hmd5⟩⟩
        rw [hiff, hashChunks, hrun, C.ok_bind, message, List.flatMap_cons,
          ← List.append_assoc]
        exact ⟨hall, hsome⟩
      · refine ⟨fun h => absurd (fun hmd5 => (h hmd5).1) hfills, fun _ => ?_⟩
        rw [hashChunks, hfault hfills]
        rfl

theorem hashStream_of_fill {chunks : List Chunk}
    (hlen : (message chunks).length < 2 ^ 61) (hfill : type = .md5 → AllFill 0 chunks) :
    hashStream cpu type chunks = .ok (type.digest (message chunks)) := by
  obtain ⟨ctx, hrun, hctx⟩ :=
    (hashChunks_absorbed hcpu chunks (hashInit_absorbed type)).1 hfill
  rw [hashStream, hrun, C.ok_bind]
  exact hashResult_digest hcpu hctx hlen

theorem hashFileLoop_absorbed (rest : List (Option (List UInt8))) :
    ∀ (reads : List (List UInt8)) {buf : List UInt8} {ctx : HashContext}
      {msg : List UInt8}, ctx.Absorbed type msg → buf.length = 4096 →
      (∀ data ∈ reads, data ≠ [] ∧ data.length ≤ 4096) →
      ∃ ctx', hashFileLoop cpu type (reads.map some ++ some [] :: rest) buf ctx
          = .ok (some ctx') ∧
        ctx'.Absorbed type (msg ++ reads.flatten)
  | [], buf, ctx, msg, hctx, _, _ => ⟨ctx, rfl, by simpa using hctx⟩
  | data :: reads, buf, ctx, msg, hctx, hbuf, hreads => by
      obtain ⟨hne, hle⟩ := hreads data List.mem_cons_self
      have hcopy : copyInto buf 0 data = .ok (data ++ buf.drop data.length) := by
        rw [copyInto_of_le (by omega), Nat.zero_add]
        rfl
      have hlen : (data ++ buf.drop data.length).length = 4096 := by
        rw [List.length_append, List.length_drop]
        omega
      obtain ⟨ctx₁, hrun, hctx₁⟩ := hashWrite_roomy hcpu hctx
        ⟨data ++ buf.drop data.length, data.length, by omega⟩
        (.inr (by rw [hlen]; decide))
      rw [Chunk.data, List.take_left] at hctx₁
      obtain ⟨ctx', hloop, hctx'⟩ := hashFileLoop_absorbed rest reads hctx₁ hlen
        fun d hd => hreads d (List.mem_cons_of_mem data hd)
      refine ⟨ctx', ?_, ?_⟩
      · have hdata : data.length ≠ 0 := mt List.length_eq_zero_iff.mp hne
        rw [List.map_cons, List.cons_append, hashFileLoop, if_neg hdata, hcopy,
          C.ok_bind, hrun, C.ok_bind, hloop]
      · rwa [List.append_assoc] at hctx'

/-- The calls of a thread: its writes, and the final function. -/
theorem hashCalls_digest : ∀ (calls : List (HashCall × List UInt8))
    (chunks : List (List UInt8)) {ctx : HashContext} {msg : List UInt8},
    ctx.Absorbed type msg → (msg ++ chunks.flatten).length < 2 ^ 61 →
    calls.map Prod.fst = chunks.map .write ++ [.final] →
    (∀ chunk behind, (.write chunk, behind) ∈ calls →
      chunk.length + behind.length = hashBufferSize) →
    ∃ ctx', hashCalls cpu type calls ctx = .ok ctx' ∧
      loadN ctx'.buf 0 type.hashCount
        = .ok (type.digest (msg ++ chunks.flatten))
  | [], _, _, _, _, _, hcalls, _ => by simp at hcalls
  | (.final, _) :: calls, [], ctx, msg, hctx, hlen, hcalls, _ => by
      have hnil : calls = [] := by simpa using hcalls
      rw [List.flatten_nil, List.append_nil] at hlen ⊢
      obtain ⟨ctx', hrun, hdigest⟩ := hashFinal_digest hcpu hctx hlen
      refine ⟨ctx', ?_, hdigest⟩
      rw [hashCalls, hrun, C.ok_bind, hnil]
      rfl
  | (.write _, _) :: _, [], _, _, _, _, hcalls, _ => by simp at hcalls
  | (.final, _) :: _, _ :: _, _, _, _, _, hcalls, _ => by simp at hcalls
  | (.write data, behind) :: calls, chunk :: chunks, ctx, msg, hctx, hlen,
      hcalls, hsize => by
      simp only [List.map_cons, List.cons_append, List.cons.injEq,
        HashCall.write.injEq] at hcalls
      obtain ⟨rfl, hcalls⟩ := hcalls
      have hbuf := hsize data behind List.mem_cons_self
      obtain ⟨ctx₁, hrun, hctx₁⟩ := hashWrite_roomy hcpu hctx
        ⟨data ++ behind, data.length, by simp⟩
        (.inr (by rw [List.length_append, hbuf]; decide))
      rw [Chunk.data, List.take_left] at hctx₁
      rw [List.flatten_cons, ← List.append_assoc] at hlen ⊢
      obtain ⟨ctx', hrest, hdigest⟩ := hashCalls_digest calls chunks hctx₁ hlen
        hcalls fun c b h => hsize c b (List.mem_cons_of_mem _ h)
      refine ⟨ctx', ?_, hdigest⟩
      rw [hashCalls, hrun, C.ok_bind, hrest]

end

/-- **Hashing a stream.** Init, a write for each chunk of a message, and final
give the digest of the message, for every algorithm and however the message is
cut; but MD5 only where it may read on behind each chunk that ends inside of a
block. `HashBuffer`, `HashFile` and the threads of `HashThread` have the room
for that, so they give the digest whatever is read at once. -/
theorem hashStream_digest {cpu : HashCpu} (hcpu : cpu.Sound) (type : HashType) :
    (∀ chunks : List Chunk, (message chunks).length < 2 ^ 61 →
      (hashStream cpu type chunks = .ok (type.digest (message chunks)) ↔
        (type = .md5 → AllFill 0 chunks))) ∧
    (∀ buf : List UInt8, buf.length < 2 ^ 61 →
      hashBuffer cpu type buf = .ok (type.digest buf)) ∧
    (∀ (reads : List (List UInt8)) (rest : List (Option (List UInt8)))
        (buf : List UInt8), reads.flatten.length < 2 ^ 61 →
      buf.length = 4096 → (∀ data ∈ reads, data ≠ [] ∧ data.length ≤ 4096) →
      hashFile cpu type (reads.map some ++ some [] :: rest) buf
        = .ok (some (type.digest reads.flatten))) ∧
    (∀ (n : ℕ) (file : List UInt8) (s : HashState n) (i : Fin n)
        (calls : List (HashCall × List UInt8)), file.length < 2 ^ 61 →
      (hashSystem n file).Reachable s → s.reader = .done →
      calls.map Prod.fst = s.calls i →
      (∀ chunk behind, (.write chunk, behind) ∈ calls →
        chunk.length + behind.length = hashBufferSize) →
      ∃ ctx, hashCalls cpu type calls (hashInit type) = .ok ctx ∧
        loadN ctx.buf 0 type.hashCount = .ok (type.digest file)) := by
  have hinit := hashInit_absorbed type
  refine ⟨fun chunks hlen => ?_, fun buf hlen => ?_,
    fun reads rest buf hlen hbuf hreads => ?_,
    fun n file s i calls hlen hs hdone hcalls hsize => ?_⟩
  · refine ⟨fun hrun => ?_, hashStream_of_fill hcpu hlen⟩
    by_contra hfill
    rw [hashStream, (hashChunks_absorbed hcpu chunks hinit).2 hfill] at hrun
    cases hrun
  · obtain ⟨ctx, hrun, hctx⟩ :=
      hashWrite_roomy hcpu hinit ⟨buf, buf.length, le_rfl⟩ (.inl rfl)
    rw [Chunk.data, List.take_length, List.nil_append] at hctx
    rw [hashBuffer, hrun, C.ok_bind]
    exact hashResult_digest hcpu hctx hlen
  · obtain ⟨ctx, hrun, hctx⟩ :=
      hashFileLoop_absorbed hcpu rest reads hinit hbuf hreads
    rw [hashFile, hrun, C.ok_bind]
    simp only [hashResult_digest hcpu hctx hlen, C.ok_bind, List.nil_append]
    rfl
  · obtain ⟨chunks, rfl, -, hchunks⟩ := (hashSystem_ok hs).done hdone
    exact hashCalls_digest hcpu calls chunks hinit hlen (hcalls.trans (hchunks i))
      hsize

/-- A processor whose accelerated SHA-1 takes the blocks one after the other. -/
def HashCpu.accelerated : HashCpu where
  sha1Accel := some (absorb 64 sha1TransformCc)
  sha256Accel := none

theorem HashCpu.accelerated_sound : HashCpu.accelerated.Sound where
  sha1 := by
    rintro _ ⟨⟩ state data - -
    rfl
  sha256 := nofun

theorem hashStream_digest_abc :
    hashStream .accelerated .md5
        [⟨[97, 98] ++ .replicate 62 0, 2, by decide⟩,
          ⟨[99] ++ .replicate 63 0, 1, by decide⟩]
      = .ok (HashType.md5.digest [97, 98, 99]) ∧
    hashBuffer .accelerated .sha1 [97, 98, 99]
      = .ok (HashType.sha1.digest [97, 98, 99]) ∧
    hashFile .accelerated .sha512 [some [97], some [98, 99], some []]
        (.replicate 4096 0)
      = .ok (some (HashType.sha512.digest [97, 98, 99])) := by
  have hstream (type : HashType) := hashStream_digest HashCpu.accelerated_sound type
  refine ⟨?_, ?_, ?_⟩
  · refine ((hstream .md5).1 _ ?_).mpr fun _ => ⟨?_, ?_, trivial⟩
    · decide
    · intro h
      cases h
    · intro _ _
      decide
  · exact (hstream .sha1).2.1 _ (by decide)
  · exact (hstream .sha512).2.2.1 [[97], [98, 99]] [] (.replicate 4096 0)
      (by decide) List.length_replicate (by decide)

/-- Two chunks of one byte each: the copy of the second goes behind its end. -/
theorem hashStream_md5_overrun :
    (message [⟨[97], 1, by decide⟩, ⟨[98], 1, by decide⟩]).length < 2 ^ 61 ∧
    hashStream ⟨none, none⟩ .md5 [⟨[97], 1, by decide⟩, ⟨[98], 1, by decide⟩]
      = .error .outOfBounds ∧
    hashStream ⟨none, none⟩ .md5 [⟨[97], 1, by decide⟩, ⟨[98], 1, by decide⟩]
      ≠ .ok (HashType.md5.digest [97, 98]) := by
  have hrun : hashStream ⟨none, none⟩ .md5
      [⟨[97], 1, by decide⟩, ⟨[98], 1, by decide⟩] = .error .outOfBounds := by
    decide +kernel
  refine ⟨by decide, hrun, ?_⟩
  rw [hrun]
  nofun

end Nawam
