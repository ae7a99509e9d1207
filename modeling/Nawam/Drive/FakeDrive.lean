import Nawam.Drive.BadBlocks

/-!
# Drives that claim to be larger than they are

In the first pass of `test_rw` each block carries its own number, at an offset
that is drawn once. A drive of `n` blocks that answers for block `i` with block
`i % n` gives back the number of the last block that was written there; so the
blocks that are overwritten later in the pass are the ones that are found.
-/

namespace Nawam

/-! ## The drive -/

/-- Blocks that are stored from `start` on, each at its number modulo `n`. -/
def fakeStore (n : ℕ) : (ℕ → List UInt8) → ℕ → List (List UInt8) → ℕ → List UInt8
  | d, _, [] => d
  | d, start, block :: blocks =>
      fakeStore n (Function.update d (start % n) block) (start + 1) blocks

/-- A drive of `n` blocks that takes every number of a block, and never
fails. -/
def fakeDrive (n blockSize : ℕ) : Drive (ℕ → List UInt8) where
  write d offset bytes :=
    (some (true, bytes.length),
      fakeStore n d (offset / blockSize)
        (pieces blockSize (bytes.length / blockSize) bytes))
  read d offset size :=
    (some ((List.range (size / blockSize)).map fun i =>
      d ((offset / blockSize + i) % n)).flatten, d)
  cancelled _ := false

/-- A later block of the `N` goes to the same place. -/
def Overwritten (n N b : ℕ) : Prop := ∃ j, b < j ∧ j < N ∧ j % n = b % n

theorem overwritten_iff {n : ℕ} (hn : 0 < n) (N b : ℕ) :
    Overwritten n N b ↔ b + n < N := by
  constructor
  · rintro ⟨j, hbj, hj, hmod⟩
    have hdvd : n ∣ j - b := (Nat.modEq_iff_dvd' hbj.le).mp hmod.symm
    have hle := Nat.le_of_dvd (by omega) hdvd
    omega
  · intro h
    exact ⟨b + n, by omega, h, Nat.add_mod_right b n⟩

/-- Numbers that are less than `n` apart have different places. -/
theorem mod_ne_of_lt {n i j : ℕ} (hij : i < j) (hj : j < i + n) :
    i % n ≠ j % n := by
  intro hmod
  have hdvd : n ∣ j - i := (Nat.modEq_iff_dvd' hij.le).mp hmod
  have hle := Nat.le_of_dvd (by omega) hdvd
  omega

/-! ## The call of `test_rw` -/

/-- What the call promises where fakes are looked for. Either the whole drive
is below the limit of the assertion in the comparison, or there are enough
blocks for `max_bb` to come first. -/
structure TestArgs.ChecksFakes (args : TestArgs) : Prop where
  accepted : args.accepted = true
  detectFakes : args.detectFakes = true
  firstBlock : args.firstBlock = 0
  idOffset : args.idOffset + 8 ≤ args.blockSize
  blocksAtOnce : 0 < args.blocksAtOnce
  batch : args.blocksAtOnce * args.blockSize ≤ 0xFFFFFFFF
  limit : args.lastBlock * args.blockSize < PB ∨
    0 < args.maxBb ∧ args.maxBb + args.blocksAtOnce ≤ args.lastBlock

namespace TestArgs.ChecksFakes

variable {args : TestArgs}

theorem blockSize_pos (h : args.ChecksFakes) : 0 < args.blockSize := by
  have := h.idOffset
  omega

theorem size (h : args.ChecksFakes) : args.lastBlock * args.blockSize ≤ PB := by
  have haccepted := h.accepted
  simp only [TestArgs.accepted, Bool.and_eq_true, decide_eq_true_eq] at haccepted
  exact haccepted.2

theorem passes (h : args.ChecksFakes) : 0 < args.nbPasses := by
  have haccepted := h.accepted
  simp only [TestArgs.accepted, Bool.and_eq_true, decide_eq_true_eq] at haccepted
  exact haccepted.1.1.1.2

end TestArgs.ChecksFakes

def badBlocksArgs (diskSize flashType nbPasses rand : ℕ)
    (detectFakes largeDrive : Bool) : TestArgs where
  lastBlock := diskSize / (512 * 1024)
  blockSize := 512 * 1024
  firstBlock := 0
  blocksAtOnce := 64
  patternType := flashType
  nbPasses := nbPasses
  detectFakes := detectFakes
  largeDrive := largeDrive
  idOffset := fakeOffset rand (512 * 1024)
  maxBb := 256

theorem badBlocksArgs_checksFakes {diskSize flashType nbPasses rand : ℕ}
    {largeDrive : Bool} (hrand : rand ≤ 0x7fff)
    (haccepted : (badBlocksArgs diskSize flashType nbPasses rand true
      largeDrive).accepted = true) :
    (badBlocksArgs diskSize flashType nbPasses rand true
      largeDrive).ChecksFakes := by
  have hsize : diskSize / (512 * 1024) * (512 * 1024) ≤ PB := by
    simp only [TestArgs.accepted, Bool.and_eq_true, decide_eq_true_eq] at haccepted
    exact haccepted.2
  refine ⟨haccepted, rfl, rfl, ?_, show 0 < 64 by decide,
    show 64 * (512 * 1024) ≤ 0xFFFFFFFF by decide, ?_⟩
  · have hoffset : rand * (512 * 1024 - 8) / 0x7fff ≤ 512 * 1024 - 8 := by
      apply Nat.div_le_of_le_mul
      exact Nat.mul_le_mul_right _ hrand
    show rand * (512 * 1024 - 8) / 0x7fff + 8 ≤ 512 * 1024
    omega
  · show diskSize / (512 * 1024) * (512 * 1024) < 2 ^ 50 ∨
      0 < 256 ∧ 256 + 64 ≤ diskSize / (512 * 1024)
    omega

/-! ## The bytes of a block -/

def TestArgs.byte (args : TestArgs) : UInt8 :=
  (bpattern 4 (args.pattern 0)).getD 0 0

/-- What the first pass writes to the block `b`. -/
def content (args : TestArgs) (b : ℕ) : List UInt8 :=
  (List.range args.blockSize).map fun k =>
    if args.idOffset ≤ k ∧ k < args.idOffset + 8
    then (leBytes 8 b).getD (k - args.idOffset) 0 else args.byte

/-- The buffer has the byte of the pattern outside of the numbers. -/
def Blank (args : TestArgs) (buffer : Memory) : Prop :=
  ∀ i < args.blocksAtOnce, ∀ k < args.blockSize,
    ¬(args.idOffset ≤ k ∧ k < args.idOffset + 8) →
      buffer (i * args.blockSize + k) = args.byte

theorem content_length (args : TestArgs) (b : ℕ) :
    (content args b).length = args.blockSize := by
  simp [content]

/-- The first pattern of every type is a byte. -/
theorem bpattern_first {args : TestArgs} (h : args.accepted = true) :
    (bpattern 4 (args.pattern 0)).length ≤ 1 := by
  have htype : args.patternType < 5 := by
    simp only [TestArgs.accepted, Bool.and_eq_true, decide_eq_true_eq] at h
    exact h.1.1.1.1
  have hall : ∀ t < 5,
      (bpattern 4 ((badblockPatterns.getD t []).getD 0 0)).length ≤ 1 := by
    decide
  exact hall _ htype

theorem fillLoop_byte (bytes : List UInt8) : ∀ n : ℕ,
    fillLoop bytes 0 n 0 = .replicate n (bytes.getD 0 0)
  | 0 => rfl
  | n + 1 => by
      rw [fillLoop, if_pos rfl, fillLoop_byte bytes n]
      rfl

theorem patternFill_blank {args : TestArgs} (h : args.accepted = true)
    (buffer : Memory) :
    Blank args (blitList buffer 0 (patternFill (args.pattern 0)
      (args.blocksAtOnce * args.blockSize))) := by
  have hlen := bpattern_first h
  have hfill : patternFill (args.pattern 0) (args.blocksAtOnce * args.blockSize)
      = .replicate (args.blocksAtOnce * args.blockSize) args.byte := by
    rw [patternFill, show (bpattern 4 (args.pattern 0)).length - 1 = 0 by omega]
    exact fillLoop_byte _ _
  intro i hi k hk _
  have hin : i * args.blockSize + k < args.blocksAtOnce * args.blockSize := by
    have hnext := Nat.mul_le_mul_right args.blockSize (Nat.succ_le_of_lt hi)
    rw [Nat.succ_mul] at hnext
    omega
  have hblit := @blitList_inside buffer 0
    (.replicate (args.blocksAtOnce * args.blockSize) args.byte)
    (i * args.blockSize + k) (by rwa [List.length_replicate])
  rw [Nat.zero_add] at hblit
  rw [hfill, hblit, List.getD_eq_getElem?_getD, List.getElem?_replicate, if_pos hin]
  rfl

/-- The numbers go to their place in each block, and nowhere else. -/
theorem stampIds_apply {args : TestArgs}
    (hoffset : args.idOffset + 8 ≤ args.blockSize) (ct : ℕ) (buffer : Memory)
    {i k : ℕ} (hk : k < args.blockSize) : ∀ m : ℕ,
    stampIds args ct buffer m (i * args.blockSize + k)
      = if i < m ∧ args.idOffset ≤ k ∧ k < args.idOffset + 8
        then (leBytes 8 (ct + i)).getD (k - args.idOffset) 0
        else buffer (i * args.blockSize + k)
  | 0 => by simp [stampIds]
  | m + 1 => by
      have hlen : (leBytes 8 (ct + m)).length = 8 := leBytes_length 8 _
      rw [stampIds]
      rcases Nat.lt_trichotomy i m with him | rfl | him
      · -- the blocks in front have theirs already
        have hnext := Nat.mul_le_mul_right args.blockSize (Nat.succ_le_of_lt him)
        rw [Nat.succ_mul] at hnext
        rw [blitList_outside _ (by omega), stampIds_apply hoffset ct buffer hk m]
        exact if_congr (by omega) rfl rfl
      · by_cases hin : args.idOffset ≤ k ∧ k < args.idOffset + 8
        · have hpos : i * args.blockSize + k
              = args.idOffset + i * args.blockSize + (k - args.idOffset) := by omega
          rw [if_pos ⟨Nat.lt_succ_self i, hin⟩]
          conv_lhs => rw [hpos]
          exact blitList_inside _ _ (by omega)
        · rw [blitList_outside _ (by omega), stampIds_apply hoffset ct buffer hk i,
            if_neg (fun h => hin h.2), if_neg (fun h => hin h.2)]
      · have hnext := Nat.mul_le_mul_right args.blockSize (Nat.succ_le_of_lt him)
        rw [Nat.succ_mul] at hnext
        rw [blitList_outside _ (by omega), stampIds_apply hoffset ct buffer hk m]
        exact if_congr (by omega) rfl rfl

theorem stampIds_blank {args : TestArgs}
    (hoffset : args.idOffset + 8 ≤ args.blockSize) {buffer : Memory}
    (h : Blank args buffer) (ct m : ℕ) : Blank args (stampIds args ct buffer m) := by
  intro i hi k hk hout
  rw [stampIds_apply hoffset ct buffer hk m, if_neg fun hin => hout hin.2]
  exact h i hi k hk hout

/-- So the buffer has the contents of the blocks that are tried now. -/
theorem blockAt_stampIds {args : TestArgs}
    (hoffset : args.idOffset + 8 ≤ args.blockSize) {buffer : Memory}
    (h : Blank args buffer) (ct : ℕ) {i : ℕ} (hi : i < args.blocksAtOnce) :
    blockAt args (stampIds args ct buffer args.blocksAtOnce) i
      = content args (ct + i) := by
  refine List.map_congr_left fun k hk => ?_
  have hk : k < args.blockSize := List.mem_range.mp hk
  rw [stampIds_apply hoffset ct buffer hk]
  by_cases hin : args.idOffset ≤ k ∧ k < args.idOffset + 8
  · rw [if_pos ⟨hi, hin⟩, if_pos hin]
  · rw [if_neg fun hall => hin hall.2, if_neg hin]
    exact h i hi k hk hin

/-- Two blocks have different contents, as they have different numbers. -/
theorem content_inj {args : TestArgs}
    (hoffset : args.idOffset + 8 ≤ args.blockSize) {b c : ℕ} (hb : b < 2 ^ 64)
    (hc : c < 2 ^ 64) (h : content args b = content args c) : b = c := by
  have hbytes : leBytes 8 b = leBytes 8 c := by
    apply List.ext_getElem
    · rw [leBytes_length, leBytes_length]
    · intro k hk hk'
      rw [leBytes_length] at hk
      have hget := congrArg (fun bytes => bytes[args.idOffset + k]?) h
      have hin : args.idOffset + k < args.blockSize := by omega
      have hplace : args.idOffset ≤ args.idOffset + k ∧
          args.idOffset + k < args.idOffset + 8 := by omega
      simp only [content, List.getElem?_map, List.getElem?_range hin,
        Option.map_some, if_pos hplace, Option.some.injEq,
        Nat.add_sub_cancel_left] at hget
      rw [List.getElem_eq_getD 0, hget, List.getElem_eq_getD 0]
  rw [← leValue_leBytes 8 b hb, ← leValue_leBytes 8 c hc, hbytes]

/-! ## What the drive holds -/

/-- Behind the writes up to `upto` the drive has the last `n` blocks. -/
def Stored (args : TestArgs) (n upto : ℕ) (d : ℕ → List UInt8) : Prop :=
  ∀ b < upto, upto ≤ b + n → d (b % n) = content args b

theorem fakeStore_stored {args : TestArgs} {n : ℕ} :
    ∀ (k start : ℕ) {d : ℕ → List UInt8}, Stored args n start d →
      Stored args n (start + k)
        (fakeStore n d start ((List.range' start k).map (content args)))
  | 0, _, _, h => h
  | k + 1, start, d, h => by
      have hnext : Stored args n (start + 1)
          (Function.update d (start % n) (content args start)) := by
        intro b hb hlast
        by_cases hbs : b = start
        · rw [hbs, Function.update_self]
        · rw [Function.update_of_ne (mod_ne_of_lt (by omega) (by omega))]
          exact h b (by omega) (by omega)
      rw [List.range'_succ, List.map_cons, fakeStore,
        show start + (k + 1) = start + 1 + k by omega]
      exact fakeStore_stored k (start + 1) hnext

/-- What the drive gives back for a block: its content, unless a later one has
overwritten it. -/
theorem Stored.readBack {args : TestArgs} {n N : ℕ} {d : ℕ → List UInt8}
    (h : Stored args n N d) (hn : 0 < n) {b : ℕ} (hb : b < N) :
    ∃ j, b ≤ j ∧ j < N ∧ d (b % n) = content args j ∧ (j = b ↔ N ≤ b + n) := by
  have hdiv := Nat.div_add_mod (N - 1 - b) n
  have hlt := Nat.mod_lt (N - 1 - b) hn
  set m := (N - 1 - b) / n with hm
  have hmod : (b + n * m) % n = b % n := Nat.add_mul_mod_self_left b n m
  refine ⟨b + n * m, by omega, by omega, ?_, ?_⟩
  · rw [← hmod]
    exact h _ (by omega) (by omega)
  · constructor
    · intro hj
      omega
    · intro hlast
      have hzero : m = 0 := Nat.div_eq_of_lt (by omega)
      rw [hzero, Nat.mul_zero, Nat.add_zero]

/-! ## The turns of the first pass -/

namespace TestRw

variable {args : TestArgs} {n : ℕ} {s : TestRw (ℕ → List UInt8)}

theorem blocksDone_mul {blockSize : ℕ} (hbs : 0 < blockSize) (got : ℕ) :
    blocksDone blockSize ((got * blockSize : ℕ) : ℤ) = got := by
  unfold blocksDone
  rw [if_neg (by omega), Int.toNat_natCast, Nat.mul_div_cancel _ hbs]

/-- Where all the blocks were transferred the test goes on behind them. -/
theorem advance_all (s : TestRw (ℕ → List UInt8))
    (hrecover : s.recoverBlock = none) (htry : 0 < s.tryout) (error : ErrorType) :
    s.advance args error s.tryout
      = { s with currentlyTesting := s.currentlyTesting + s.tryout } := by
  have hgood : s.failed s.tryout = false := by
    have hne : s.tryout ≠ 0 := by omega
    simp [failed, hne]
  simp [advance, hgood, hrecover]

/-- What both loops keep as long as nothing fails. -/
structure Smooth (args : TestArgs) (s : TestRw (ℕ → List UInt8)) : Prop where
  patIdx : s.patIdx = 0
  recoverBlock : s.recoverBlock = none
  blank : Blank args s.buffer
  tryout : 0 < s.tryout ∧ s.tryout ≤ args.blocksAtOnce
  upto : s.currentlyTesting ≤ args.lastBlock

/-- A batch is not empty, and its blocks are in the buffer. -/
structure Batch (args : TestArgs) (s : TestRw (ℕ → List UInt8)) : Prop where
  smooth : s.Smooth args
  upto : s.currentlyTesting + s.tryout ≤ args.lastBlock
  contents : ∀ i < args.blocksAtOnce,
    blockAt args s.buffer i = content args (s.currentlyTesting + i)

theorem Smooth.prepare (h : s.Smooth args) (hargs : args.ChecksFakes)
    (hlast : s.currentlyTesting < args.lastBlock) :
    (s.prepare args).Batch args := by
  have hstamps : args.stamps s.patIdx = true := by
    simp [TestArgs.stamps, hargs.detectFakes, h.patIdx]
  have hbuffer : (s.prepare args).buffer
      = stampIds args s.currentlyTesting s.buffer args.blocksAtOnce := by
    simp [TestRw.prepare, hstamps]
  have htry : 0 < (s.prepare args).tryout
      ∧ (s.prepare args).tryout ≤ args.blocksAtOnce := by
    have := h.tryout
    unfold TestRw.prepare
    dsimp only
    split <;> omega
  refine ⟨⟨h.patIdx, h.recoverBlock, ?_, htry, h.upto⟩, prepare_le hlast, ?_⟩
  · rw [hbuffer]
    exact stampIds_blank hargs.idOffset h.blank _ _
  · intro i hi
    rw [hbuffer]
    exact blockAt_stampIds hargs.idOffset h.blank _ hi

theorem Batch.size (h : s.Batch args) (hargs : args.ChecksFakes) :
    s.tryout * args.blockSize ≤ 0xFFFFFFFF :=
  le_trans (Nat.mul_le_mul_right _ h.smooth.tryout.2) hargs.batch

/-- Behind the batch the loop can go on as before. -/
theorem Batch.behind (h : s.Batch args) {t : TestRw (ℕ → List UInt8)}
    (hpatIdx : t.patIdx = s.patIdx) (hrecover : t.recoverBlock = s.recoverBlock)
    (hbuffer : t.buffer = s.buffer) (htry : t.tryout = s.tryout)
    (hpos : t.currentlyTesting = s.currentlyTesting + s.tryout) :
    t.Smooth args :=
  ⟨hpatIdx.trans h.smooth.patIdx, hrecover.trans h.smooth.recoverBlock,
    hbuffer ▸ h.smooth.blank, htry ▸ h.smooth.tryout, hpos ▸ h.upto⟩

theorem Batch.transferWrite (h : s.Batch args) (hargs : args.ChecksFakes) :
    s.transferWrite (fakeDrive n args.blockSize) args
      = (s.tryout, { s with
          drive := fakeStore n s.drive s.currentlyTesting
            ((List.range' s.currentlyTesting s.tryout).map (content args))
          records := s.recordWrite args s.tryout }) := by
  have hsize := h.size hargs
  have hbs := hargs.blockSize_pos
  have hblocks : pieces args.blockSize s.tryout
      (slice s.buffer 0 (s.tryout * args.blockSize))
      = (List.range' s.currentlyTesting s.tryout).map (content args) := by
    rw [pieces_slice, List.range'_eq_map_range, List.map_map]
    refine List.map_congr_left fun i hi => ?_
    have hi : i < args.blocksAtOnce :=
      lt_of_lt_of_le (List.mem_range.mp hi) h.smooth.tryout.2
    rw [Nat.zero_add, Function.comp_apply, ← h.contents i hi]
    rfl
  have hwrite : (fakeDrive n args.blockSize).writeSectors args.largeDrive s.drive
      args.blockSize s.currentlyTesting s.tryout s.buffer
      = (((s.tryout * args.blockSize : ℕ) : ℤ),
          fakeStore n s.drive s.currentlyTesting
            ((List.range' s.currentlyTesting s.tryout).map (content args))) := by
    unfold Drive.writeSectors
    dsimp only
    rw [if_neg (by omega)]
    simp [fakeDrive, Nat.mul_div_cancel _ hbs, hblocks]
  unfold TestRw.transferWrite
  rw [hwrite]
  simp only [blocksDone_mul hbs]

theorem Batch.transferRead (h : s.Batch args) (hargs : args.ChecksFakes)
    (hlength : ∀ i < s.tryout,
      (s.drive ((s.currentlyTesting + i) % n)).length = args.blockSize) :
    ∃ readBuffer records,
      s.transferRead (fakeDrive n args.blockSize) args
        = (s.tryout, { s with readBuffer := readBuffer, records := records }) ∧
      ∀ i < s.tryout, blockAt args readBuffer i
        = s.drive ((s.currentlyTesting + i) % n) := by
  have hsize := h.size hargs
  have hbs := hargs.blockSize_pos
  set blocks := (List.range s.tryout).map fun i =>
    s.drive ((s.currentlyTesting + i) % n) with hblocks
  have hcount : blocks.length = s.tryout := by simp [hblocks]
  have heach : ∀ block ∈ blocks, block.length = args.blockSize := by
    intro block hblock
    obtain ⟨i, hi, rfl⟩ := List.mem_map.mp hblock
    exact hlength i (List.mem_range.mp hi)
  have hbytes : blocks.flatten.length = s.tryout * args.blockSize := by
    rw [flatten_length heach, hcount]
  have hread : (fakeDrive n args.blockSize).readSectors s.drive args.blockSize
      s.currentlyTesting s.tryout s.readBuffer
      = (((s.tryout * args.blockSize : ℕ) : ℤ),
          blitList s.readBuffer 0 blocks.flatten, s.drive) := by
    unfold Drive.readSectors
    dsimp only
    rw [if_neg (by omega)]
    simp only [fakeDrive, Nat.mul_div_cancel _ hbs, ← hblocks]
    rw [List.take_of_length_le hbytes.le, hbytes]
  set u := { s with readBuffer := blitList s.readBuffer 0 blocks.flatten } with hu
  refine ⟨u.readBuffer, u.recordRead args s.tryout, ?_, ?_⟩
  · unfold TestRw.transferRead
    rw [hread]
    simp only [blocksDone_mul hbs, hu]
  · intro i hi
    have hin : i < blocks.length := hcount.symm ▸ hi
    have hend : i * args.blockSize + args.blockSize ≤ blocks.flatten.length := by
      have := Nat.mul_le_mul_right args.blockSize (Nat.succ_le_of_lt hi)
      rw [Nat.succ_mul] at this
      omega
    rw [blockAt, slice_blitList _ _ hend, flatten_slice heach hin]
    simp [hblocks]

/-! ## The first pass -/

/-- The list has the blocks below `upto` that are overwritten. -/
def FoundBelow (n N upto : ℕ) (list : List ℕ) : Prop :=
  ∀ b, b ∈ list ↔ b < upto ∧ b + n < N

theorem FoundBelow.length {N upto : ℕ} {list : List ℕ}
    (h : FoundBelow n N upto list) (hsorted : list.Pairwise (· < ·)) :
    list.length = min upto (N - n) := by
  have hperm : list.Perm (List.range (min upto (N - n))) := by
    refine (List.perm_ext_iff_of_nodup (hsorted.imp Nat.ne_of_lt)
      List.nodup_range).mpr fun b => ?_
    rw [h b, List.mem_range]
    omega
  rw [hperm.length_eq, List.length_range]

/-- While the blocks of the first pass are read: the drive has the last ones,
and the list what is overwritten of those that were read. -/
structure FirstReading (args : TestArgs) (n : ℕ)
    (s : TestRw (ℕ → List UInt8)) : Prop where
  smooth : s.Smooth args
  stored : Stored args n args.lastBlock s.drive
  found : FoundBelow n args.lastBlock s.currentlyTesting s.found.bbList

/-- While they are compared: the buffers have what was read and what was to be
read. -/
structure FirstComparing (args : TestArgs) (n got i : ℕ)
    (s : TestRw (ℕ → List UInt8)) : Prop where
  smooth : s.Smooth args
  stored : Stored args n args.lastBlock s.drive
  le : i ≤ got ∧ got ≤ s.currentlyTesting
  found : FoundBelow n args.lastBlock (s.currentlyTesting - got + i)
    s.found.bbList
  readBack : ∀ j < got, blockAt args s.readBuffer j
    = s.drive ((s.currentlyTesting - got + j) % n)
  contents : ∀ j < got, blockAt args s.buffer j
    = content args (s.currentlyTesting - got + j)
  -- the assertion holds, or is not looked at
  room : s.currentlyTesting * args.blockSize < PB ∨
    args.lastBlock ≤ s.currentlyTesting - got + n

structure FirstPass (args : TestArgs) (n : ℕ)
    (s : TestRw (ℕ → List UInt8)) : Prop where
  patIdx : s.patIdx = 0
  passHead : s.pc = .passHead →
    s.found = ⟨[], 0, 0, 0, 0⟩ ∧ s.recoverBlock = none
  writing : s.pc = .writing → s.Smooth args ∧
    Stored args n s.currentlyTesting s.drive ∧ s.found = ⟨[], 0, 0, 0, 0⟩
  reading : s.pc = .reading → s.FirstReading args n
  comparing : ∀ got i, s.pc = .comparing got i → s.FirstComparing args n got i
  passDone : s.pc = .passDone →
    FoundBelow n args.lastBlock args.lastBlock s.found.bbList
  aborted : s.pc = .aborted → s.tooMany args = true ∧
    ∃ upto, FoundBelow n args.lastBlock upto s.found.bbList
  unfinished : s.pc ≠ .finished

/-- What is left of the first pass -/
def left (args : TestArgs) (s : TestRw (ℕ → List UInt8)) : ℕ :=
  match s.pc with
  | .passHead => 4 * args.lastBlock + 4
  | .writing => args.lastBlock - s.currentlyTesting + 3 * args.lastBlock + 3
  | .reading => 3 * (args.lastBlock - s.currentlyTesting) + 1
  | .comparing got i =>
      3 * (args.lastBlock - s.currentlyTesting) + (got - i) + 2
  | .passDone | .finished | .aborted => 0

/-- Where the limit is not reached yet, the assertion in the comparison of the
next batch holds, or none of its blocks is overwritten. -/
theorem FirstReading.room (h : s.FirstReading args n) (hargs : args.ChecksFakes)
    (hacc : s.found.Accounted) (hfew : s.tooMany args = false) {k : ℕ}
    (hk : k ≤ args.blocksAtOnce) (hupto : s.currentlyTesting + k ≤ args.lastBlock) :
    (s.currentlyTesting + k) * args.blockSize < PB ∨
      args.lastBlock ≤ s.currentlyTesting + n := by
  rcases hargs.limit with hsmall | ⟨hmax, hroom⟩
  · exact .inl (lt_of_le_of_lt (Nat.mul_le_mul_right _ hupto) hsmall)
  · have hcount : s.found.bbCount < args.maxBb := by
      by_contra hmany
      have hmany := Nat.le_of_not_lt hmany
      have hne : args.maxBb ≠ 0 := by omega
      simp [tooMany, hmany, hne] at hfew
    rw [hacc.length, h.found.length hacc.sorted] at hcount
    rcases Nat.lt_or_ge (s.currentlyTesting + n) args.lastBlock with hlt | hge
    · left
      have hless : s.currentlyTesting + k < args.lastBlock := by omega
      exact lt_of_lt_of_le ((Nat.mul_lt_mul_right hargs.blockSize_pos).mpr hless)
        hargs.size
    · exact .inr hge

theorem passHead_first (hargs : args.ChecksFakes) (hpc : s.pc = .passHead)
    (h : s.FirstPass args n) :
    (s.passHead (fakeDrive n args.blockSize) args).FirstPass args n ∧
    (s.passHead (fakeDrive n args.blockSize) args).left args < s.left args := by
  obtain ⟨hfound, hrecover⟩ := h.passHead hpc
  have hpasses : s.patIdx < args.nbPasses := h.patIdx ▸ hargs.passes
  have hturn : s.passHead (fakeDrive n args.blockSize) args = { s with
      buffer := blitList s.buffer 0 (patternFill (args.pattern 0)
        (args.blocksAtOnce * args.blockSize))
      currentlyTesting := 0
      tryout := args.blocksAtOnce
      pc := .writing
      records := .start s.found.bbList } := by
    rw [TestRw.passHead, if_neg (by simpa using hpasses), h.patIdx,
      hargs.firstBlock]
    rfl
  rw [hturn]
  constructor
  · refine ⟨h.patIdx, nofun, fun _ => ⟨⟨h.patIdx, hrecover, ?_, ?_, ?_⟩, ?_, hfound⟩,
      nofun, nofun, nofun, nofun, nofun⟩
    · exact patternFill_blank hargs.accepted s.buffer
    · exact ⟨hargs.blocksAtOnce, le_rfl⟩
    · exact Nat.zero_le _
    · exact fun b hb => absurd hb (Nat.not_lt_zero b)
  · simp only [left, hpc]
    omega

theorem writeTurn_first (hargs : args.ChecksFakes) (hpc : s.pc = .writing)
    (h : s.FirstPass args n) :
    (s.writeTurn (fakeDrive n args.blockSize) args).FirstPass args n ∧
    (s.writeTurn (fakeDrive n args.blockSize) args).left args < s.left args := by
  obtain ⟨hsmooth, hstored, hfound⟩ := h.writing hpc
  have hupto := hsmooth.upto
  unfold writeTurn
  split
  case isTrue hend =>
      have hall : s.currentlyTesting = args.lastBlock := by omega
      constructor
      · refine ⟨h.patIdx, nofun, nofun, fun _ => ⟨⟨h.patIdx, hsmooth.recoverBlock,
          hsmooth.blank, ⟨hargs.blocksAtOnce, le_rfl⟩, ?_⟩, ?_, ?_⟩, nofun, nofun,
          nofun, nofun⟩
        · show args.firstBlock ≤ args.lastBlock
          rw [hargs.firstBlock]
          exact Nat.zero_le _
        · exact hall ▸ hstored
        · intro b
          show b ∈ s.found.bbList ↔ b < args.firstBlock ∧ _
          simp [hfound, hargs.firstBlock]
      · simp only [left, hpc, hargs.firstBlock]
        omega
  case isFalse hlast =>
      have hfew : s.tooMany args = false := by
        simp [tooMany, hfound]
      split
      case isTrue hstop =>
          have hnever : (fakeDrive n args.blockSize).cancelled s.drive = false := rfl
          simp [hfew, hnever] at hstop
      case isFalse =>
          have hbatch := hsmooth.prepare hargs (Decidable.not_not.mp hlast)
          set p := s.prepare args with hp
          obtain ⟨hsame, hdrive, hpos⟩ : p.found = s.found ∧ p.drive = s.drive ∧
            p.currentlyTesting = s.currentlyTesting := ⟨rfl, rfl, rfl⟩
          have hpcp : p.pc = .writing := hpc
          have htry := hbatch.smooth.tryout.1
          have hadvance (d : ℕ → List UInt8) (records : PassRecords) :
              { p with drive := d, records := records }.advance args .write p.tryout
              = { p with
                  currentlyTesting := p.currentlyTesting + p.tryout
                  drive := d
                  records := records } :=
            advance_all { p with drive := d, records := records }
              hbatch.smooth.recoverBlock htry .write
          simp only [hbatch.transferWrite hargs, hadvance]
          constructor
          · refine ⟨h.patIdx, by simp [hpcp], fun _ => ⟨hbatch.behind rfl rfl rfl rfl rfl,
              fakeStore_stored _ _ ?_, hsame.trans hfound⟩, by simp [hpcp],
              by simp [hpcp], by simp [hpcp], by simp [hpcp], by simp [hpcp]⟩
            rw [hdrive, hpos]
            exact hstored
          · have hle := hbatch.upto
            simp only [left, hpc, hpcp]
            omega

theorem readTurn_first (hargs : args.ChecksFakes) (hn : 0 < n)
    (hacc : s.found.Accounted) (hpc : s.pc = .reading) (h : s.FirstPass args n) :
    (s.readTurn (fakeDrive n args.blockSize) args).FirstPass args n ∧
    (s.readTurn (fakeDrive n args.blockSize) args).left args < s.left args := by
  obtain ⟨hsmooth, hstored, hfound⟩ := h.reading hpc
  have hupto := hsmooth.upto
  unfold readTurn
  split
  case isTrue hend =>
      have hall : s.currentlyTesting = args.lastBlock := by omega
      constructor
      · exact ⟨h.patIdx, nofun, nofun, nofun, nofun, fun _ => hall ▸ hfound, nofun,
          nofun⟩
      · simp only [left, hpc]
        omega
  case isFalse hlast =>
      split
      case isTrue hstop =>
          have hmany : s.tooMany args = true := hstop.resolve_left Bool.false_ne_true
          constructor
          · exact ⟨h.patIdx, nofun, nofun, nofun, nofun, nofun,
              fun _ => ⟨hmany, _, hfound⟩, nofun⟩
          · simp only [left, hpc]
            omega
      case isFalse hgo =>
          have hbatch := hsmooth.prepare hargs (Decidable.not_not.mp hlast)
          set p := s.prepare args with hp
          obtain ⟨hsame, hdrive, hpos⟩ : p.found = s.found ∧ p.drive = s.drive ∧
            p.currentlyTesting = s.currentlyTesting := ⟨rfl, rfl, rfl⟩
          have htry := hbatch.smooth.tryout
          have hle := hbatch.upto
          -- every block was written, so what is read has its size
          have hlength (i : ℕ) (hi : i < p.tryout) :
              (p.drive ((p.currentlyTesting + i) % n)).length = args.blockSize := by
            obtain ⟨j, -, -, hj, -⟩ :=
              hstored.readBack hn (show p.currentlyTesting + i < args.lastBlock by omega)
            rw [hdrive, hj, content_length]
          obtain ⟨readBuffer, records, htransfer, hread⟩ :=
            hbatch.transferRead hargs hlength
          set u := { p with readBuffer := readBuffer, records := records } with hu
          have hadvance : u.advance args .read p.tryout
              = { u with currentlyTesting := p.currentlyTesting + p.tryout } :=
            advance_all u hbatch.smooth.recoverBlock htry.1 .read
          simp only [htransfer, hadvance]
          rw [if_neg (show ¬p.tryout ≠ u.tryout from not_not.mpr rfl)]
          constructor
          · refine ⟨h.patIdx, nofun, nofun, nofun, fun got i hcomparing => ?_, nofun,
              nofun, nofun⟩
            cases hcomparing
            refine ⟨hbatch.behind rfl rfl rfl rfl rfl, hdrive ▸ hstored,
              ⟨Nat.zero_le _, Nat.le_add_left _ _⟩, ?_, ?_, ?_, ?_⟩
            all_goals dsimp only; rw [Nat.add_sub_cancel]
            · rw [Nat.add_zero, hsame, hpos]
              exact hfound
            · exact hread
            · exact fun j hj => hbatch.contents j (by omega)
            · have hfew : s.tooMany args = false :=
                Bool.eq_false_iff.mpr fun hmany => hgo (.inr hmany)
              exact FirstReading.room ⟨hsmooth, hstored, hfound⟩ hargs hacc hfew
                htry.2 hle
          · simp only [left, hpc]
            omega

theorem FirstComparing.differs_iff {got i : ℕ}
    (h : s.FirstComparing args n got i) (hargs : args.ChecksFakes) (hn : 0 < n)
    (hi : i < got) :
    blockAt args s.readBuffer i ≠ blockAt args s.buffer i ↔
      s.currentlyTesting - got + i + n < args.lastBlock := by
  have hupto := h.smooth.upto
  have hle := h.le
  have hsmall : args.lastBlock < 2 ^ 64 := by
    have hmul := Nat.le_mul_of_pos_right args.lastBlock hargs.blockSize_pos
    have hlimit : args.lastBlock * args.blockSize ≤ 2 ^ 50 := hargs.size
    omega
  obtain ⟨j, -, hj, hdrive, hsame⟩ := h.stored.readBack hn
    (show s.currentlyTesting - got + i < args.lastBlock by omega)
  rw [h.readBack i hi, h.contents i hi, hdrive]
  constructor
  · intro hne
    by_contra hlast
    exact hne (congrArg (content args) (hsame.mpr (Nat.le_of_not_lt hlast)))
  · intro hlast heq
    have hnumber := content_inj hargs.idOffset (lt_trans hj hsmall) (by omega) heq
    have := hsame.mp hnumber
    omega

theorem compareTurn_first (hargs : args.ChecksFakes) (hn : 0 < n)
    (hacc : s.found.Accounted) {got i : ℕ} (hpc : s.pc = .comparing got i)
    (h : s.FirstPass args n) :
    (s.compareTurn args got i).FirstPass args n ∧
    (s.compareTurn args got i).left args < s.left args := by
  have hc := h.comparing got i hpc
  have hle := hc.le
  have hsmooth := hc.smooth
  unfold compareTurn
  split
  case isTrue hend =>
      have hall : s.currentlyTesting - got + i = s.currentlyTesting := by omega
      constructor
      · exact ⟨h.patIdx, nofun, nofun, fun _ => ⟨⟨hsmooth.patIdx,
          hsmooth.recoverBlock, hsmooth.blank, hsmooth.tryout, hsmooth.upto⟩,
          hc.stored, hall ▸ hc.found⟩, nofun, nofun, nofun, nofun⟩
      · simp only [left, hpc]
        omega
  case isFalse hi =>
      have hlt : i < got := Decidable.not_not.mp hi
      have hdiffers := hc.differs_iff hargs hn hlt
      have hblock : s.currentlyTesting + i - got = s.currentlyTesting - got + i := by
        omega
      dsimp only
      split
      case isTrue hne =>
          have hover := hdiffers.mp hne
          have hasserts : s.currentlyTesting * args.blockSize < PB :=
            hc.room.resolve_right (by omega)
          rw [if_pos hasserts]
          obtain ⟨-, hmem⟩ := bbOutput_accounted hacc
            (s.currentlyTesting + i - got) .corruption
          constructor
          · refine ⟨h.patIdx, nofun, nofun, nofun, fun got' i' hpc' => ?_, nofun,
              nofun, nofun⟩
            cases hpc'
            refine ⟨⟨hsmooth.patIdx, hsmooth.recoverBlock, hsmooth.blank,
              hsmooth.tryout, hsmooth.upto⟩, hc.stored, ⟨hlt, hle.2⟩, fun b => ?_,
              hc.readBack, hc.contents, hc.room⟩
            refine (hmem b).trans ?_
            rw [hc.found b, hblock]
            show _ ↔ b < s.currentlyTesting - got + (i + 1) ∧ _
            omega
          · simp only [left, hpc]
            omega
      case isFalse hsame =>
          have hkept : ¬s.currentlyTesting - got + i + n < args.lastBlock :=
            fun hover => hsame (hdiffers.mpr hover)
          constructor
          · refine ⟨h.patIdx, nofun, nofun, nofun, fun got' i' hpc' => ?_, nofun,
              nofun, nofun⟩
            cases hpc'
            refine ⟨⟨hsmooth.patIdx, hsmooth.recoverBlock, hsmooth.blank,
              hsmooth.tryout, hsmooth.upto⟩, hc.stored, ⟨hlt, hle.2⟩, fun b => ?_,
              hc.readBack, hc.contents, hc.room⟩
            refine (hc.found b).trans ?_
            show _ ↔ b < s.currentlyTesting - got + (i + 1) ∧ _
            omega
          · simp only [left, hpc]
            omega

/-- As long as it is not over the first pass goes on, and to its end. -/
theorem step_first (hargs : args.ChecksFakes) (hn : 0 < n)
    (hacc : s.found.Accounted) (h : s.FirstPass args n)
    {t : TestRw (ℕ → List UInt8)}
    (hstep : s.step (fakeDrive n args.blockSize) args = some t)
    (hpc : s.pc ≠ .passDone) : t.FirstPass args n ∧ t.left args < s.left args := by
  cases hpc' : s.pc with
  | passHead =>
      simp only [step, hpc', Option.some.injEq] at hstep
      exact hstep ▸ passHead_first hargs hpc' h
  | writing =>
      simp only [step, hpc', Option.some.injEq] at hstep
      exact hstep ▸ writeTurn_first hargs hpc' h
  | reading =>
      simp only [step, hpc', Option.some.injEq] at hstep
      exact hstep ▸ readTurn_first hargs hn hacc hpc' h
  | comparing got i =>
      simp only [step, hpc', Option.some.injEq] at hstep
      exact hstep ▸ compareTurn_first hargs hn hacc hpc' h
  | passDone => exact absurd hpc' hpc
  | finished | aborted => simp [step, hpc'] at hstep

theorem step_patIdx {δ : Type} {drive : Drive δ} {s t : TestRw δ}
    (hstep : s.step drive args = some t) : s.patIdx ≤ t.patIdx := by
  cases hpc : s.pc with
  | passHead =>
      simp only [step, hpc, Option.some.injEq] at hstep
      subst hstep
      unfold passHead
      split
      · exact le_rfl
      · split <;> exact le_rfl
  | writing =>
      simp only [step, hpc, Option.some.injEq] at hstep
      subst hstep
      unfold writeTurn
      split
      · exact le_rfl
      · split
        · exact le_rfl
        · exact (advance_advanced args
            ((s.prepare args).transferWrite drive args).2 .write
            ((s.prepare args).transferWrite drive args).1).patIdx.ge
  | reading =>
      simp only [step, hpc, Option.some.injEq] at hstep
      subst hstep
      unfold readTurn
      split
      · exact le_rfl
      · split
        · exact le_rfl
        · have hadvance := (advance_advanced args
            ((s.prepare args).transferRead drive args).2 .read
            ((s.prepare args).transferRead drive args).1).patIdx
          dsimp only
          split <;> exact hadvance.ge
  | comparing got i =>
      simp only [step, hpc, Option.some.injEq] at hstep
      subst hstep
      unfold compareTurn
      split
      · exact le_rfl
      · dsimp only
        split
        · split <;> exact le_rfl
        · exact le_rfl
  | passDone =>
      simp only [step, hpc, Option.some.injEq] at hstep
      subst hstep
      exact Nat.le_succ s.patIdx
  | finished | aborted => simp [step, hpc] at hstep

end TestRw

theorem testRw_firstPass {args : TestArgs} (hargs : args.ChecksFakes) {n : ℕ}
    (hn : 0 < n) {s : TestRw (ℕ → List UInt8)}
    (h : (testRw (fakeDrive n args.blockSize) args).Reachable s) :
    s.patIdx = 0 → s.FirstPass args n := by
  refine (h.invariant (I := fun s => s.Ok args ∧
    (s.patIdx = 0 → s.FirstPass args n)) (fun s hs => ?_) ?_).2
  · refine ⟨testRw_ok (.init hs), fun hfirst => ?_⟩
    have hpc := hs.2.pc
    exact ⟨hfirst, fun _ => ⟨hs.2.found, hs.2.recoverBlock⟩, by simp [hpc],
      by simp [hpc], by simp [hpc], by simp [hpc], by simp [hpc], by simp [hpc]⟩
  · rintro s - t ⟨hok, hpass⟩ (hstep : s.step _ args = some t)
    refine ⟨TestRw.step_ok hok hstep, fun hfirst => ?_⟩
    have hle := TestRw.step_patIdx hstep
    refine (TestRw.step_first hargs hn hok.accounted (hpass (by omega)) hstep ?_).1
    intro hpc
    simp only [TestRw.step, hpc, Option.some.injEq] at hstep
    subst hstep
    exact absurd hfirst (Nat.succ_ne_zero _)

/-- The first pass comes to its end, or to `max_bb`. -/
theorem testRw_ends {args : TestArgs} (hargs : args.ChecksFakes) {n : ℕ}
    (hn : 0 < n) {s : TestRw (ℕ → List UInt8)}
    (h : (testRw (fakeDrive n args.blockSize) args).Reachable s)
    (hfirst : s.patIdx = 0) :
    ∃ turns t, (testRw (fakeDrive n args.blockSize) args).run turns s = some t ∧
      t.patIdx = 0 ∧ (t.pc = .passDone ∨ t.pc = .aborted) := by
  refine h.finishes (TestRw.left args) (fun t ht hpass hgoes => ?_) hfirst
  have hfirst' := testRw_firstPass hargs hn ht hpass
  obtain ⟨hdone, hstopped⟩ := not_or.mp hgoes
  obtain ⟨u, hu⟩ : ∃ u, t.step (fakeDrive n args.blockSize) args = some u := by
    cases hpc : t.pc with
    | finished => exact absurd hpc hfirst'.unfinished
    | passDone => exact absurd hpc hdone
    | aborted => exact absurd hpc hstopped
    | passHead | writing | reading | comparing => simp [TestRw.step, hpc]
  obtain ⟨hnext, hless⟩ :=
    TestRw.step_first hargs hn (testRw_ok ht).accounted hfirst' hu hdone
  exact ⟨(), u, hu, hnext.patIdx, hless⟩

/-- **The first pass finds a drive that is smaller than it claims.** On a drive
of `n` blocks it comes to an end, or is stopped because there are `max_bb` bad
blocks. At the end the list has exactly the blocks that a later one of the
pass has overwritten. Either way some are found if and only if the drive has
less blocks than it claims; one that has them all is not stopped. -/
theorem testRw_finds_fakes {args : TestArgs} (hargs : args.ChecksFakes) {n : ℕ}
    (hn : 0 < n) {s : TestRw (ℕ → List UInt8)}
    (h : (testRw (fakeDrive n args.blockSize) args).Reachable s)
    (hfirst : s.patIdx = 0) :
    (s.pc = .passDone →
      ∀ b, b ∈ s.found.bbList ↔ Overwritten n args.lastBlock b) ∧
    (s.pc = .aborted → s.tooMany args = true ∧
      ∀ b ∈ s.found.bbList, Overwritten n args.lastBlock b) ∧
    (s.pc = .passDone ∨ s.pc = .aborted →
      (0 < s.found.bbCount ↔ n < args.lastBlock)) ∧
    (args.lastBlock ≤ n →
      s.pc ≠ .aborted ∧ (s.pc = .passDone → s.found.bbList = [])) ∧
    ∃ turns t, (testRw (fakeDrive n args.blockSize) args).run turns s = some t ∧
      t.patIdx = 0 ∧ (t.pc = .passDone ∨ t.pc = .aborted) := by
  have hpass := testRw_firstPass hargs hn h hfirst
  have hacc := (testRw_ok h).accounted
  have hstopped (hpc : s.pc = .aborted) : 0 < s.found.bbCount := by
    have hmany := (hpass.aborted hpc).1
    simp only [TestRw.tooMany, Bool.and_eq_true, decide_eq_true_eq] at hmany
    omega
  have hany (hend : s.pc = .passDone ∨ s.pc = .aborted) :
      0 < s.found.bbCount ↔ n < args.lastBlock := by
    rcases hend with hpc | hpc
    · have hfound := hpass.passDone hpc
      rw [hacc.length, hfound.length hacc.sorted]
      omega
    · obtain ⟨upto, hfound⟩ := (hpass.aborted hpc).2
      have hpos := hstopped hpc
      rw [hacc.length, hfound.length hacc.sorted] at hpos ⊢
      omega
  refine ⟨fun hpc b => ?_, fun hpc => ⟨(hpass.aborted hpc).1, fun b hb => ?_⟩, hany,
    fun hall => ⟨fun hpc => ?_, fun hpc => ?_⟩, testRw_ends hargs hn h hfirst⟩
  · rw [hpass.passDone hpc b, overwritten_iff hn]
    omega
  · obtain ⟨upto, hfound⟩ := (hpass.aborted hpc).2
    exact (overwritten_iff hn _ b).mpr ((hfound b).mp hb).2
  · have := (hany (.inr hpc)).mp (hstopped hpc)
    omega
  · have hnone := mt (hany (.inl hpc)).mp (Nat.not_lt.mpr hall)
    rw [hacc.length] at hnone
    exact List.length_eq_zero_iff.mp (by omega)

/-- A drive of two blocks that claims to have 8 GB. -/
theorem testRw_finds_fakes_8GB :
    ∃ turns t, (testRw (fakeDrive 2 (512 * 1024))
        (badBlocksArgs (2 ^ 33) 1 2 0x1234 true true)).run turns
        (.start fun _ => []) = some t ∧
      t.patIdx = 0 ∧ (t.pc = .passDone ∨ t.pc = .aborted) :=
  (testRw_finds_fakes (badBlocksArgs_checksFakes (by decide) (by decide))
    (by decide) (TestRw.start_reachable (by decide) _) rfl).2.2.2.2

end Nawam
