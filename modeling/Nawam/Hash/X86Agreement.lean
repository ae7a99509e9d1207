import Nawam.Hash.X86Sha1
import Nawam.Hash.X86Sha256

/-!
# The accelerated transforms agree with the portable ones

The programs of `X86Sha1` and `X86Sha256` compute the same standard as the
portable transforms, so block by block their vectors hold the low halves of the
words that the portable transforms leave. The high halves are where they differ:
the portable transforms add up in 64 bits and leave the carries there, while the
accelerated ones unpack words of 32 bits. No algorithm reads them.
-/

namespace Nawam

open Standard

/-! ## The words of a state -/

/-- The first `n` words without their high halves. -/
def cutHigh (n : ℕ) (state : List UInt64) : List UInt64 :=
  ((lowHalves state).take n).map (·.toUInt64) ++ state.drop n

theorem lowHalves_cutHigh (n : ℕ) (state : List UInt64) :
    lowHalves (cutHigh n state) = lowHalves state := by
  have hlow (words : List UInt32) : lowHalves (words.map (·.toUInt64)) = words := by
    rw [lowHalves, List.map_map]
    exact List.map_id'' UInt32.toUInt32_toUInt64 words
  rw [cutHigh, lowHalves, List.map_append, ← lowHalves, hlow, List.map_drop,
    ← lowHalves, List.take_append_drop]

/-- Words out of vectors take the place of those of the state. -/
theorem repack_words {n : ℕ} {state words : List UInt64} (hn : n ≤ words.length)
    (hrest : words.drop n = state.drop n) :
    repack state (.ofFn (words32 n words)) = cutHigh n words := by
  rw [repack, List.length_ofFn, cutHigh, hrest]
  congr 1
  apply List.ext_getElem
  · simp [lowHalves, hn]
  · intro i hi _
    have hin : i < n := by simpa using hi
    have hword : words.getD i 0 = words[i] := List.getD_eq_getElem _ _ (by omega)
    simp only [List.getElem_map, List.getElem_ofFn, List.getElem_take, lowHalves,
      words32, hword]

theorem chain_drop (state : List UInt64) (registers : List UInt32) :
    (chain state registers).drop registers.length = state.drop registers.length := by
  by_cases h : registers.length ≤ state.length
  · rw [chain, List.drop_left' (by rw [List.length_zipWith]; omega)]
  · rw [List.drop_eq_nil_of_le (by rw [chain_length]; omega),
      List.drop_eq_nil_of_le (by omega)]

theorem exists_ofFn {α : Type} {n : ℕ} {l : List α} (h : l.length = n) :
    ∃ f : Fin n → α, .ofFn f = l := by
  subst h
  exact ⟨l.get, List.ofFn_get l⟩

/-! ## SHA-1 -/

/-- The vectors hold the words of a hash value. -/
structure Sha1Vectors (r : Sha1Reg → M128i) (H : Fin 5 → BitVec 32) : Prop where
  abcd : r .ABCD = abcdVector (H 0, H 1, H 2, H 3, H 4)
  e0 : r (.E 0) = ⟨0, 0, 0, H 4⟩

theorem Sha1Vectors.program {r : Sha1Reg → M128i} {H : Fin 5 → BitVec 32}
    (h : Sha1Vectors r H) {block : List UInt8} (hblock : block.length = 64) :
    Sha1Vectors (runProgram sha1Mask sha1Program block r)
      (Sha1.compress H (blockWord bigEndian 4 block)) := by
  obtain ⟨habcd, he⟩ := sha1Program_run hblock h.abcd h.e0
  obtain ⟨⟨a, b, c, d, e⟩, hv⟩ : ∃ v, sha1Variables (H 0, H 1, H 2, H 3, H 4)
      (blockWord bigEndian 4 block) 80 = v := ⟨_, rfl⟩
  rw [hv] at habcd he
  rw [sha1Variables] at hv
  rw [Sha1.compress, hv]
  refine ⟨habcd, ?_⟩
  rw [he, BitVec.add_comm]
  rfl

theorem Sha1Vectors.unpack {r : Sha1Reg → M128i} {H : Fin 5 → BitVec 32}
    (h : Sha1Vectors r H) :
    [(shuffleEpi32 (r .ABCD) 0x1B).d0, (shuffleEpi32 (r .ABCD) 0x1B).d1,
      (shuffleEpi32 (r .ABCD) 0x1B).d2, (shuffleEpi32 (r .ABCD) 0x1B).d3,
      extractEpi32 (r (.E 0)) 3] = .ofFn H := by
  rw [h.abcd, h.e0]
  rfl

theorem sha1TransformX86_eq (r : Sha1Reg → M128i) (state : Fin 8 → UInt64)
    (data : List UInt8) : sha1TransformX86 r (.ofFn state) data
      = cutHigh 5 (absorb 64 sha1TransformCc (.ofFn state) data) := by
  -- before any block the vectors hold what was packed
  have hfirst : Sha1Vectors (Function.update (Function.update r .ABCD
      (shuffleEpi32 ⟨packed (.ofFn state) 0, packed (.ofFn state) 1,
        packed (.ofFn state) 2, packed (.ofFn state) 3⟩ 0x1B)) (.E 0)
      (setEpi32 (packed (.ofFn state) 4) 0 0 0)) (words32 5 (.ofFn state)) :=
    ⟨rfl, rfl⟩
  have hall := @absorb_rel _ _ 64 (fun r block => runProgram sha1Mask sha1Program block r)
    _ sha1TransformCc
    (fun r words => words.length = 8 ∧
      words.drop 5 = (List.ofFn state).drop 5 ∧ Sha1Vectors r (words32 5 words))
    (by
      rintro r words block hblock ⟨hlen, hdrop, hr⟩
      obtain ⟨words, rfl⟩ := exists_ofFn hlen
      have hrest := chain_drop (.ofFn words) (sha1Rounds (lowHalves (.ofFn words)) block)
      refine ⟨(chain_length ..).trans hlen, hrest.trans hdrop, ?_⟩
      rw [sha1TransformCc_compress]
      exact hr.program hblock)
    _ _ ⟨List.length_ofFn, rfl, hfirst⟩ data
  obtain ⟨hlen, hdrop, hvectors⟩ := hall
  rw [← repack_words (by omega) hdrop, ← hvectors.unpack]
  rfl

/-! ## SHA-256 -/

/-- The vectors hold the words of a hash value. -/
structure Sha256Vectors (r : Sha256Reg → M128i) (H : Fin 8 → BitVec 32) : Prop where
  state0 : r .STATE0 = abefVector (H 0, H 1, H 2, H 3, H 4, H 5, H 6, H 7)
  state1 : r .STATE1 = cdghVector (H 0, H 1, H 2, H 3, H 4, H 5, H 6, H 7)

theorem Sha256Vectors.program {r : Sha256Reg → M128i} {H : Fin 8 → BitVec 32}
    (h : Sha256Vectors r H) {block : List UInt8} (hblock : block.length = 64) :
    Sha256Vectors (runProgram sha256Mask sha256Program block r)
      (sha256.compress H (blockWord bigEndian 4 block)) := by
  obtain ⟨h0, h1⟩ := sha256Program_run hblock h.state0 h.state1
  obtain ⟨⟨a, b, c, d, e, f, g, h⟩, hv⟩ : ∃ v, sha256Variables
      (H 0, H 1, H 2, H 3, H 4, H 5, H 6, H 7) (blockWord bigEndian 4 block) 64 = v :=
    ⟨_, rfl⟩
  rw [hv] at h0 h1
  rw [sha256Variables] at hv
  rw [Sha2.compress, show sha256.rounds = 64 from rfl, hv]
  exact ⟨h0, h1⟩

/-- The words that are packed, two and two -/
theorem Sha256Vectors.pack (r : Sha256Reg → M128i) (state64 : List UInt64) :
    let TMP := shuffleEpi32 ⟨packed state64 0, packed state64 1, packed state64 2,
      packed state64 3⟩ 0xB1
    let STATE1 := shuffleEpi32 ⟨packed state64 4, packed state64 5,
      packed state64 6, packed state64 7⟩ 0x1B
    Sha256Vectors (Function.update
      (Function.update r .STATE0 (alignrEpi8 TMP STATE1 8)) .STATE1
      (blendEpi16 STATE1 TMP 0xF0)) (words32 8 state64) := by
  intro TMP STATE1
  rw [alignrEpi8_eight, blendEpi16_high]
  exact ⟨rfl, rfl⟩

theorem Sha256Vectors.unpack {r : Sha256Reg → M128i} {H : Fin 8 → BitVec 32}
    (h : Sha256Vectors r H) :
    let TMP := shuffleEpi32 (r .STATE0) 0x1B
    let STATE1 := shuffleEpi32 (r .STATE1) 0xB1
    [(blendEpi16 TMP STATE1 0xF0).d0, (blendEpi16 TMP STATE1 0xF0).d1,
      (blendEpi16 TMP STATE1 0xF0).d2, (blendEpi16 TMP STATE1 0xF0).d3,
      (alignrEpi8 STATE1 TMP 8).d0, (alignrEpi8 STATE1 TMP 8).d1,
      (alignrEpi8 STATE1 TMP 8).d2, (alignrEpi8 STATE1 TMP 8).d3] = .ofFn H := by
  rw [h.state0, h.state1]
  intro TMP STATE1
  rw [alignrEpi8_eight, blendEpi16_high]
  rfl

theorem sha256TransformX86_eq (r : Sha256Reg → M128i) (state : Fin 8 → UInt64)
    (data : List UInt8) : sha256TransformX86 r (.ofFn state) data
      = cutHigh 8 (absorb 64 sha256TransformCc (.ofFn state) data) := by
  have hall := @absorb_rel _ _ 64
    (fun r block => runProgram sha256Mask sha256Program block r) _ sha256TransformCc
    (fun r words => words.length = 8 ∧
      words.drop 8 = (List.ofFn state).drop 8 ∧ Sha256Vectors r (words32 8 words))
    (by
      rintro r words block hblock ⟨hlen, hdrop, hr⟩
      obtain ⟨words, rfl⟩ := exists_ofFn hlen
      have hrest := chain_drop (.ofFn words) (sha256Rounds (lowHalves (.ofFn words)) block)
      refine ⟨(chain_length ..).trans hlen, hrest.trans hdrop, ?_⟩
      rw [sha256TransformCc_compress]
      exact hr.program hblock)
    _ _ ⟨List.length_ofFn, rfl, .pack r (.ofFn state)⟩ data
  obtain ⟨hlen, hdrop, hvectors⟩ := hall
  rw [← repack_words (by omega) hdrop, ← hvectors.unpack]
  rfl

/-! ## The processors -/

/-- The processor that `DetectSHA1Acceleration` and `DetectSHA256Acceleration`
tell from another one. -/
def detectedCpu (r : Sha1Reg → M128i) (r' : Sha256Reg → M128i)
    (cpuHasSha1Accel cpuHasSha256Accel : Bool) : HashCpu where
  sha1Accel := if cpuHasSha1Accel then some (sha1TransformX86 r) else none
  sha256Accel := if cpuHasSha256Accel then some (sha256TransformX86 r') else none

section

variable (r : Sha1Reg → M128i) (r' : Sha256Reg → M128i)

theorem detectedCpu_sound (sha1 sha256 : Bool) : (detectedCpu r r' sha1 sha256).Sound where
  sha1 := by
    intro x86 hx86 state data hlen _
    obtain ⟨state, rfl⟩ := exists_ofFn hlen
    cases sha1 with
    | false => cases hx86
    | true =>
        obtain rfl : sha1TransformX86 r = x86 := by simpa [detectedCpu] using hx86
        rw [sha1TransformX86_eq, lowHalves_cutHigh]
  sha256 := by
    intro x86 hx86 state data hlen _
    obtain ⟨state, rfl⟩ := exists_ofFn hlen
    cases sha256 with
    | false => cases hx86
    | true =>
        obtain rfl : sha256TransformX86 r' = x86 := by simpa [detectedCpu] using hx86
        rw [sha256TransformX86_eq, lowHalves_cutHigh]

end

/-- Where the write functions are the same, so is what they leave. -/
theorem hashChunks_congr {cpu cpu' : HashCpu} {type : HashType}
    (h : hashWrite cpu type = hashWrite cpu' type) : ∀ (chunks : List Chunk)
    (ctx : HashContext), hashChunks cpu type chunks ctx = hashChunks cpu' type chunks ctx
  | [], _ => rfl
  | chunk :: chunks, ctx => by
      simp only [hashChunks, h, hashChunks_congr h chunks]

/-- Contexts of the SHA family that absorbed the same have the same result. -/
theorem shaFinal_agree {type : HashType} {transform transform' : Transform}
    {accel accel' : Option Transform} (himp : Implements type transform accel)
    (himp' : Implements type transform' accel') {ctx ctx' : HashContext}
    {msg : List UInt8} (hctx : ctx.Absorbed type msg) (hctx' : ctx'.Absorbed type msg)
    (length : UInt64 → List UInt8)
    (hfield : ∀ count, (length count).length = type.lengthSize) :
    (do
      let ctx ← shaFinal type.blockSize transform length type.output ctx
      loadN ctx.buf 0 type.hashCount) = (do
      let ctx ← shaFinal type.blockSize transform' length type.output ctx'
      loadN ctx.buf 0 type.hashCount) := by
  obtain ⟨ctx₁, hrun, hload⟩ := shaFinal_output himp hctx length (hfield _)
  obtain ⟨ctx₁', hrun', hload'⟩ := shaFinal_output himp' hctx' length (hfield _)
  rw [hrun, hrun', C.ok_bind, C.ok_bind, hload, hload', hctx.bytecount,
    hctx'.bytecount]

theorem hashStream_agree {cpu cpu' : HashCpu} (hcpu : cpu.Sound) (hcpu' : cpu'.Sound)
    (type : HashType) (chunks : List Chunk) :
    hashStream cpu type chunks = hashStream cpu' type chunks := by
  have hinit := hashInit_absorbed type
  have hcount (count : UInt64) : (writeSwap64 (count <<< 3)).length = 8 := by
    rw [writeSwap64, littleEndian64_eq, List.length_reverse, leBytes_length]
  cases type with
  | md5 =>
      rw [hashStream, hashStream, @hashChunks_congr cpu cpu' .md5 rfl]
      rfl
  | sha512 =>
      rw [hashStream, hashStream, @hashChunks_congr cpu cpu' .sha512 rfl]
      rfl
  | sha1 =>
      obtain ⟨ctx, hrun, hctx⟩ := (hashChunks_absorbed hcpu chunks hinit).1 (by rintro ⟨⟩)
      obtain ⟨ctx', hrun', hctx'⟩ := (hashChunks_absorbed hcpu' chunks hinit).1 (by rintro ⟨⟩)
      rw [hashStream, hashStream, hrun, hrun', C.ok_bind, C.ok_bind]
      exact shaFinal_agree (implements_getD hcpu.sha1) (implements_getD hcpu'.sha1)
        hctx hctx' _ hcount
  | sha256 =>
      obtain ⟨ctx, hrun, hctx⟩ := (hashChunks_absorbed hcpu chunks hinit).1 (by rintro ⟨⟩)
      obtain ⟨ctx', hrun', hctx'⟩ := (hashChunks_absorbed hcpu' chunks hinit).1 (by rintro ⟨⟩)
      rw [hashStream, hashStream, hrun, hrun', C.ok_bind, C.ok_bind]
      exact shaFinal_agree (implements_getD hcpu.sha256)
        (implements_getD hcpu'.sha256) hctx hctx' _ hcount

/-- **Accelerated and portable hashing agree.** Over any data the accelerated
transforms leave what the portable ones leave block by block, without the high
halves of the words; so whatever the processor has, hashing a stream gives the
same. -/
theorem transformX86_agrees (r : Sha1Reg → M128i) (r' : Sha256Reg → M128i) :
    (∀ (state : Fin 8 → UInt64) (data : List UInt8),
      sha1TransformX86 r (.ofFn state) data
        = cutHigh 5 (absorb 64 sha1TransformCc (.ofFn state) data)) ∧
    (∀ (state : Fin 8 → UInt64) (data : List UInt8),
      sha256TransformX86 r' (.ofFn state) data
        = cutHigh 8 (absorb 64 sha256TransformCc (.ofFn state) data)) ∧
    ∀ (sha1 sha256 : Bool) (type : HashType) (chunks : List Chunk),
      hashStream (detectedCpu r r' sha1 sha256) type chunks
        = hashStream ⟨none, none⟩ type chunks :=
  ⟨sha1TransformX86_eq r, sha256TransformX86_eq r', fun sha1 sha256 type chunks =>
    hashStream_agree (detectedCpu_sound r r' sha1 sha256)
      (detectedCpu_sound r r' false false) type chunks⟩

/-- A block of zeros: the portable transform leaves a carry. -/
theorem sha1TransformX86_carry :
    sha1TransformX86 (fun _ => ⟨0, 0, 0, 0⟩) sha1Init.state (.replicate 64 0)
      ≠ absorb 64 sha1TransformCc sha1Init.state (.replicate 64 0) := by
  have hstate : sha1Init.state = .ofFn fun i : Fin 8 => sha1Init.state.getD i 0 := by
    decide
  rw [hstate, sha1TransformX86_eq, ← hstate]
  decide +kernel

end Nawam
