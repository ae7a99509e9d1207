import Nawam.Base.Ensures
import Nawam.Hash.Streaming

/-!
# What the write functions access

`md5_write`, `sha1_write`, `sha256_write` and `sha512_write` of `hash.c` as
users of memory: of the buffer they are given they should read the `len` bytes
of the chunk, and of the context they should write the block, which is all of
the buffer for SHA-512 and half of it for the others. A step that makes do with
so much is the same wherever there is more (`Framed`). The three functions of
the SHA family do; `md5_write` does unless the chunk ends inside of the block
that was begun before.
-/

namespace Nawam

/-! ## Frames -/

theorem loadN_append_left {mem : List UInt8} {i n : ℕ} (h : i + n ≤ mem.length)
    (more : List UInt8) : loadN (mem ++ more) i n = loadN mem i n := by
  rw [loadN_of_le h, loadN_of_le (by rw [List.length_append]; omega),
    List.drop_append_of_le_length (by omega),
    List.take_append_of_le_length (by rw [List.length_drop]; omega)]

/-- A copy that stays in a block, whatever is behind the block. -/
theorem copyInto_frame {block data : List UInt8} {i : ℕ}
    (h : i + data.length ≤ block.length) :
    ∃ filled, copyInto block i data = .ok filled ∧
      filled.length = block.length ∧
      ∀ tail, copyInto (block ++ tail) i data = .ok (filled ++ tail) := by
  refine ⟨_, copyInto_of_le h, ?_, fun tail => ?_⟩
  · simp only [List.length_append, List.length_take, List.length_drop]
    omega
  · rw [copyInto_of_le (by rw [List.length_append]; omega),
      List.take_append_of_le_length (by omega),
      List.drop_append_of_le_length h, List.append_assoc, List.append_assoc]

namespace HashContext

def extend (ctx : HashContext) (tail : List UInt8) : HashContext :=
  { ctx with buf := ctx.buf ++ tail }

/-- The context with no more of its buffer than the first `n` bytes -/
def cut (ctx : HashContext) (n : ℕ) : HashContext :=
  { ctx with buf := ctx.buf.take n }

theorem cut_extend (ctx : HashContext) (n : ℕ) :
    (ctx.cut n).extend (ctx.buf.drop n) = ctx := by
  simp only [cut, extend, List.take_append_drop]

theorem cut_length {ctx : HashContext} {n : ℕ} (h : n ≤ ctx.buf.length) :
    (ctx.cut n).buf.length = n :=
  List.length_take_of_le h

end HashContext

/-- A step that needs no more than the bytes it is given and the buffer of the
context: with more behind either it does the same, and leaves what is behind
the buffer as it was. -/
def Framed (step : List UInt8 → HashContext → C HashContext)
    (data : List UInt8) (ctx : HashContext) : Prop :=
  ∃ ctx', step data ctx = .ok ctx' ∧ ctx'.buf.length = ctx.buf.length ∧
    ∀ more tail, step (data ++ more) (ctx.extend tail) = .ok (ctx'.extend tail)

/-- What a write should be able to do with: the bytes of the chunk, and the
block in the context. It then does what it does on all of the memory. -/
def StaysInside (cpu : HashCpu) (type : HashType) (chunk : Chunk)
    (ctx : HashContext) : Prop :=
  ∃ ctx', hashWrite cpu type chunk.data chunk.len (ctx.cut type.blockSize)
      = .ok ctx' ∧
    hashWrite cpu type chunk.mem chunk.len ctx
      = .ok (ctx'.extend (ctx.buf.drop type.blockSize))

/-- Init, and any writes that did not fault. -/
inductive HashContext.Reachable (cpu : HashCpu) (type : HashType) :
    HashContext → Prop where
  | init : Reachable cpu type (hashInit type)
  | write {ctx ctx' : HashContext} (chunk : Chunk)
      (before : Reachable cpu type ctx)
      (run : hashWrite cpu type chunk.mem chunk.len ctx = .ok ctx') :
      Reachable cpu type ctx'

/-! ## The steps of a write -/

section

variable {n : ℕ} (hn : 0 < n) (transform : Transform) (accel : Option Transform)
  {ctx : HashContext} {data : List UInt8}

include hn in
/-- The whole blocks are all that is read of the piece at `off`. -/
theorem wholeBlocks_frame (state : List UInt64) {off len : ℕ}
    (hdata : off + len ≤ data.length) :
    ∃ state', ∀ more, wholeBlocks n transform accel (data ++ more) state off len
      = .ok (state', off + len / n * n, len % n) := by
  have hle := Nat.div_mul_le_self len n
  cases accel with
  | none =>
      refine ⟨absorb n transform state ((data.drop off).take len), fun more => ?_⟩
      have hpiece : ((data ++ more).drop off).take len
          = (data.drop off).take len := by
        rw [List.drop_append_of_le_length (by omega),
          List.take_append_of_le_length (by rw [List.length_drop]; omega)]
      rw [wholeBlocks, blockLoop_eq hn transform (data ++ more) _ _ _ _
        (Nat.lt_succ_self len) (by rw [List.length_append]; omega), hpiece]
  | some x86 =>
      by_cases hblocks : n ≤ len
      · refine ⟨x86 state ((data.drop off).take (len / n * n)), fun more => ?_⟩
        have hmod : len - len / n * n = len % n := by
          have := Nat.div_add_mod' len n
          omega
        simp only [wholeBlocks, accelBlocks, if_pos hblocks]
        rw [loadN_append_left (by omega), loadN_of_le (by omega), C.ok_bind, hmod]
        rfl
      · have hlt : len < n := Nat.lt_of_not_le hblocks
        refine ⟨state, fun more => ?_⟩
        rw [Nat.div_eq_of_lt hlt, Nat.mod_eq_of_lt hlt, Nat.zero_mul]
        exact if_neg hblocks

include hn in
theorem writeBlocks_framed {off len : ℕ} (hdata : off + len ≤ data.length)
    (hbuf : ctx.buf.length = n) :
    Framed (writeBlocks n transform accel · off len) data ctx := by
  have hlt := Nat.mod_lt len hn
  have hmod := Nat.div_add_mod' len n
  obtain ⟨state, hstate⟩ := wholeBlocks_frame hn transform accel ctx.state hdata
  have hwhole := hstate []
  rw [List.append_nil] at hwhole
  have hrest : ((data.drop (off + len / n * n)).take (len % n)).length = len % n :=
    List.length_take_of_le (by rw [List.length_drop]; omega)
  obtain ⟨filled, hcopy, hlen, hframe⟩ :=
    @copyInto_frame ctx.buf ((data.drop (off + len / n * n)).take (len % n)) 0
      (by omega)
  refine ⟨{ ctx with state := state, buf := filled }, ?_, hlen, fun more tail => ?_⟩
  · simp only [writeBlocks, hwhole, C.ok_bind]
    rw [loadN_of_le (by omega), C.ok_bind, hcopy]
    rfl
  · simp only [writeBlocks, HashContext.extend, hstate more, C.ok_bind]
    rw [loadN_append_left (by omega), loadN_of_le (by omega), C.ok_bind,
      hframe tail]
    rfl

theorem completeBlock_framed {num : ℕ} (hnum : num ≤ n)
    (hdata : n - num ≤ data.length) (hbuf : ctx.buf.length = n) :
    Framed (completeBlock n transform num) data ctx := by
  have hpiece : (data.take (n - num)).length = n - num :=
    List.length_take_of_le hdata
  obtain ⟨filled, hcopy, hlen, hframe⟩ :=
    @copyInto_frame ctx.buf (data.take (n - num)) num (by omega)
  refine ⟨{ ctx with buf := filled, state := transform ctx.state (filled.take n) },
    ?_, hlen, fun more tail => ?_⟩
  · rw [completeBlock, loadN_of_le (by omega), C.ok_bind, List.drop_zero, hcopy,
      C.ok_bind, loadN_of_le (by omega), C.ok_bind, List.drop_zero]
    rfl
  · rw [completeBlock, loadN_append_left (by omega), loadN_of_le (by omega),
      C.ok_bind, List.drop_zero]
    simp only [HashContext.extend]
    rw [hframe tail, C.ok_bind, loadN_append_left (by omega),
      loadN_of_le (by omega), C.ok_bind, List.drop_zero]
    rfl

/-- The copy of the bytes that do not fill the block. -/
theorem copy_framed {num len : ℕ} (hdata : len ≤ data.length)
    (hfit : num + len ≤ ctx.buf.length) :
    Framed (fun buf ctx => do
      let data ← loadN buf 0 len
      let filled ← copyInto ctx.buf num data
      return { ctx with buf := filled }) data ctx := by
  have hpiece : (data.take len).length = len := List.length_take_of_le hdata
  obtain ⟨filled, hcopy, hlen, hframe⟩ :=
    @copyInto_frame ctx.buf (data.take len) num (by omega)
  refine ⟨{ ctx with buf := filled }, ?_, hlen, fun more tail => ?_⟩
  · beta_reduce
    rw [loadN_of_le (by omega), C.ok_bind, List.drop_zero, hcopy]
    rfl
  · simp only [HashContext.extend]
    rw [loadN_append_left (by omega), loadN_of_le (by omega), C.ok_bind,
      List.drop_zero, hframe tail]
    rfl

theorem Framed.bind {step next : List UInt8 → HashContext → C HashContext}
    (hstep : Framed step data ctx)
    (hnext : ∀ ctx', ctx'.buf.length = ctx.buf.length → Framed next data ctx') :
    Framed (fun buf ctx => step buf ctx >>= next buf) data ctx := by
  obtain ⟨ctx₁, hrun₁, hlen₁, hframe₁⟩ := hstep
  obtain ⟨ctx₂, hrun₂, hlen₂, hframe₂⟩ := hnext ctx₁ hlen₁
  refine ⟨ctx₂, ?_, hlen₂.trans hlen₁, fun more tail => ?_⟩
  · beta_reduce
    rw [hrun₁, C.ok_bind, hrun₂]
  · beta_reduce
    rw [hframe₁, C.ok_bind, hframe₂]

include hn in
/-- **A write of the SHA family** stays in its chunk and in its block. -/
theorem shaWrite_framed (hmask : ∀ x, x &&& (n - 1) = x % n)
    (hbuf : ctx.buf.length = n) :
    Framed (shaWrite n transform accel · data.length) data ctx := by
  have hlt := Nat.mod_lt ctx.bytecount.toNat hn
  unfold Framed
  simp only [shaWrite, hmask, HashContext.extend]
  set num := ctx.bytecount.toNat % n
  set counted : HashContext :=
    { ctx with bytecount := ctx.bytecount + .ofNat data.length }
  have hcounted : counted.buf.length = n := hbuf
  split
  case isTrue =>
      exact writeBlocks_framed hn transform accel (by omega) hcounted
  case isFalse =>
      split
      case isTrue hshort =>
          exact @copy_framed counted data num data.length le_rfl (by omega)
      case isFalse hlong =>
          have hcomplete : Framed (completeBlock n transform num) data counted :=
            completeBlock_framed transform hlt.le (by omega) hcounted
          exact hcomplete.bind fun ctx' hctx' =>
            writeBlocks_framed hn transform accel (by omega)
              (hctx'.trans hcounted)

end

/-- **The MD5 write** stays in its chunk as well, unless this ends inside of a
block that was begun. It then reads what would fill the block. -/
theorem md5Write_framed {ctx : HashContext} {data : List UInt8}
    (hbuf : ctx.buf.length = 64) :
    let num := ctx.bytecount.toNat % 64
    (¬(0 < num ∧ num + data.length < 64) →
      Framed (md5Write · data.length) data ctx) ∧
    (0 < num ∧ num + data.length < 64 →
      md5Write data data.length ctx = .error .outOfBounds) := by
  intro num
  have hlt : num < 64 := Nat.mod_lt _ (by decide)
  have hmask : ctx.bytecount.toNat &&& (64 - 1) = num :=
    HashType.md5.and_blockSize _
  constructor
  · intro hends
    unfold Framed
    simp only [md5Write, hmask, HashContext.extend]
    set counted : HashContext :=
      { ctx with bytecount := ctx.bytecount + .ofNat data.length }
    have hcounted : counted.buf.length = 64 := hbuf
    split
    case isTrue =>
        exact writeBlocks_framed (by decide) md5Transform none (by omega) hcounted
    case isFalse =>
        have hlong : ¬data.length < 64 - num := by omega
        simp only [if_neg hlong]
        have hcomplete : Framed (completeBlock 64 md5Transform num) data counted :=
          completeBlock_framed md5Transform hlt.le (by omega) hcounted
        have hrest (ctx' : HashContext) (hctx' : ctx'.buf.length = 64) :
            Framed (writeBlocks 64 md5Transform none · (64 - num)
              (data.length - (64 - num))) data ctx' :=
          writeBlocks_framed (by decide) md5Transform none (by omega) hctx'
        exact hcomplete.bind fun ctx' hctx' => hrest ctx' (hctx'.trans hcounted)
  · rintro ⟨hpos, hshort⟩
    have hread : ¬0 + (64 - num) ≤ data.length := by omega
    simp only [md5Write, hmask]
    rw [if_neg (by omega), if_pos (by omega), loadN, if_neg hread]
    rfl

/-! ## Every context -/

theorem writeBlocks_length (n : ℕ) (transform : Transform)
    (accel : Option Transform) (buf : List UInt8) (off len : ℕ)
    (ctx : HashContext) :
    Ensures (writeBlocks n transform accel buf off len ctx) fun ctx' =>
      ctx'.buf.length = ctx.buf.length :=
  .bind_eq fun _ _ => .bind_eq fun _ _ =>
    (copyInto_length ctx.buf _ 0).bind fun _ hfilled => .pure hfilled

theorem completeBlock_length (n : ℕ) (transform : Transform) (num : ℕ)
    (buf : List UInt8) (ctx : HashContext) :
    Ensures (completeBlock n transform num buf ctx) fun ctx' =>
      ctx'.buf.length = ctx.buf.length :=
  .bind_eq fun _ _ => (copyInto_length ctx.buf _ num).bind fun _ hfilled =>
    .bind_eq fun _ _ => .pure hfilled

/-- What a write does behind its copy, where it copies `k` bytes. -/
theorem shortWrite_length (num k : ℕ) (buf : List UInt8) (ctx : HashContext) :
    Ensures (do
      let data ← loadN buf 0 k
      let filled ← copyInto ctx.buf num data
      return { ctx with buf := filled }) fun ctx' : HashContext =>
        ctx'.buf.length = ctx.buf.length :=
  .bind_eq fun _ _ => (copyInto_length ctx.buf _ num).bind fun _ hfilled =>
    .pure hfilled

theorem longWrite_length (n : ℕ) (transform : Transform)
    (accel : Option Transform) (num off len : ℕ) (buf : List UInt8)
    (ctx : HashContext) :
    Ensures (completeBlock n transform num buf ctx >>=
      writeBlocks n transform accel buf off len) fun ctx' =>
        ctx'.buf.length = ctx.buf.length :=
  (completeBlock_length n transform num buf ctx).bind fun ctx₁ hlen =>
    (writeBlocks_length n transform accel buf off len ctx₁).mono
      fun _ hlen₂ => hlen₂.trans hlen

/-- No write changes the size of the buffer, also one that reads too much. -/
theorem hashWrite_length (cpu : HashCpu) (type : HashType) (buf : List UInt8)
    (len : ℕ) (ctx : HashContext) :
    Ensures (hashWrite cpu type buf len ctx) fun ctx' =>
      ctx'.buf.length = ctx.buf.length := by
  have hsha (n : ℕ) (transform : Transform) (accel : Option Transform) :
      Ensures (shaWrite n transform accel buf len ctx) fun ctx' =>
        ctx'.buf.length = ctx.buf.length :=
    .ite (fun _ => writeBlocks_length n transform accel buf 0 len _) fun _ =>
      .ite (fun _ => shortWrite_length _ len buf _) fun _ =>
        longWrite_length n transform accel _ _ _ buf _
  cases type with
  | md5 =>
      exact .ite (fun _ => writeBlocks_length 64 md5Transform none buf 0 len _)
        fun _ => .ite (fun _ => shortWrite_length _ _ buf _) fun _ =>
          longWrite_length 64 md5Transform none _ _ _ buf _
  | sha1 => exact hsha 64 (sha1Transform cpu) cpu.sha1Accel
  | sha256 => exact hsha 64 (sha256Transform cpu) cpu.sha256Accel
  | sha512 => exact hsha 128 sha512Transform none

theorem HashContext.Reachable.length {cpu : HashCpu} {type : HashType}
    {ctx : HashContext} (h : ctx.Reachable cpu type) :
    ctx.buf.length = maxBlockSize := by
  induction h with
  | init => cases type <;> rfl
  | write chunk _ run ih => exact (hashWrite_length _ _ _ _ _ _ run).trans ih

/-- The writes other than the one of MD5 behind a begun block. -/
theorem hashWrite_framed (cpu : HashCpu) {type : HashType} {ctx : HashContext}
    {data : List UInt8} (hbuf : ctx.buf.length = type.blockSize)
    (hends : type = .md5 → ¬(0 < ctx.bytecount.toNat % 64 ∧
      ctx.bytecount.toNat % 64 + data.length < 64)) :
    Framed (hashWrite cpu type · data.length) data ctx := by
  have hpos := type.blockSize_pos
  have hmask := type.and_blockSize
  cases type with
  | md5 => exact (md5Write_framed hbuf).1 (hends rfl)
  | sha1 => exact shaWrite_framed hpos _ _ hmask hbuf
  | sha256 => exact shaWrite_framed hpos _ _ hmask hbuf
  | sha512 => exact shaWrite_framed hpos _ _ hmask hbuf

/-- **What the write functions access.** In every context that init and earlier
writes lead to, a write makes do with the bytes of its chunk and with the block
of the context, except where the chunk of an MD5 write ends inside of a block
that was begun: there it reads what would fill the block. -/
theorem hashWrite_staysInside_iff (cpu : HashCpu) (type : HashType)
    (ctx : HashContext) (hctx : ctx.Reachable cpu type) (chunk : Chunk) :
    StaysInside cpu type chunk ctx ↔
      ¬(type = .md5 ∧ 0 < ctx.bytecount.toNat % 64 ∧
        ctx.bytecount.toNat % 64 + chunk.len < 64) := by
  have hblock : (ctx.cut type.blockSize).buf.length = type.blockSize :=
    HashContext.cut_length (hctx.length ▸ type.blockSize_le)
  have hdata := chunk.data_length
  constructor
  · rintro ⟨ctx', hrun, -⟩ ⟨rfl, hshort⟩
    rw [← hdata] at hrun hshort
    cases ((md5Write_framed hblock).2 hshort).symm.trans hrun
  · intro hends
    have hframed : Framed (hashWrite cpu type · chunk.data.length) chunk.data
        (ctx.cut type.blockSize) :=
      hashWrite_framed cpu hblock fun hmd5 hshort => hends ⟨hmd5, hdata ▸ hshort⟩
    obtain ⟨ctx', hrun, -, hframe⟩ := hframed
    refine ⟨ctx', hdata ▸ hrun, ?_⟩
    have hall := hframe (chunk.mem.drop chunk.len) (ctx.buf.drop type.blockSize)
    rwa [ctx.cut_extend, Chunk.data, List.take_append_drop,
      ← Chunk.data, hdata] at hall

/-- An MD5 context that was given one byte -/
def md5Begun : HashContext :=
  { md5Init with buf := 97 :: .replicate 127 0, bytecount := 1 }

theorem md5Begun_reachable : md5Begun.Reachable ⟨none, none⟩ .md5 := by
  have hrun : hashWrite ⟨none, none⟩ .md5 [97] 1 (hashInit .md5)
      = .ok md5Begun := by
    decide +kernel
  exact .write ⟨[97], 1, by decide⟩ .init hrun

/-- The 63 bytes that fill the block. -/
theorem hashWrite_staysInside_filling :
    StaysInside ⟨none, none⟩ .md5 ⟨.replicate 63 98, 63, by decide⟩ md5Begun :=
  (hashWrite_staysInside_iff ⟨none, none⟩ .md5 md5Begun md5Begun_reachable
    ⟨.replicate 63 98, 63, by decide⟩).mpr (by decide)

/-- One byte more: the copy takes 63 bytes from where there is one. -/
theorem md5Write_leaves_chunk :
    md5Begun.Reachable ⟨none, none⟩ .md5 ∧
    hashWrite ⟨none, none⟩ .md5 [98] 1 md5Begun = .error .outOfBounds ∧
    ¬StaysInside ⟨none, none⟩ .md5 ⟨[98], 1, by decide⟩ md5Begun := by
  have hrun : hashWrite ⟨none, none⟩ .md5 [98] 1 md5Begun
      = .error .outOfBounds := by
    decide
  refine ⟨md5Begun_reachable, hrun, ?_⟩
  rintro ⟨ctx', -, hall⟩
  cases hrun.symm.trans hall

end Nawam
