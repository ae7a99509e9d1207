import Nawam.Base.Ensures
import Nawam.Net.DbxInfo
import Nawam.Parser.Pe
import Nawam.Safety.DbxFormat

/-!
# Revocation by DBX

`IsRevokedByDbx` of `hash.c`: the DBX of the image's architecture, from the
cache or from the resources, is walked with the strides its first signature
list declares. All of the walk's arithmetic is that of a `uint32_t`, and it is
compared with the size of the DBX, where the block of a cached one has a NUL
more.
`revokedIn_of_format` says what the walk computes on a well-formed DBX; with
`nawamDbxValid_iff` that is the agreement of the validator and the consumer.
-/

namespace Nawam

/-! ## Source -/

/-- What the check reads besides its arguments. The sizes are `DWORD`. -/
structure DbxSources where
  readSetting64 : List UInt8 → ℤ
  appDataDir : List UInt8
  /-- `read_file`: the contents, empty when it returns 0 -/
  readFile : List UInt8 → List UInt8
  /-- `GetResource(.., IDR_DBX + i, ..)` -/
  getResource : ℕ → Option (List UInt8)
  readFile_lt : ∀ path, (readFile path).length < 2 ^ 32
  getResource_lt : ∀ i, ∀ dbx ∈ getResource i, dbx.length < 2 ^ 32

/-- `dbx_data`: the `dbx_size` bytes of the DBX, and what the block has behind
them. -/
structure DbxBuffer where
  data : List UInt8
  behind : List UInt8
deriving DecidableEq, Repr

def DbxBuffer.block (dbx : DbxBuffer) : List UInt8 := dbx.data ++ dbx.behind

/-- `dbx_data` for an image: nothing when the architecture is unknown or the
resource is missing. `read_file` puts a NUL behind the file. -/
def dbxBuffer (env : DbxSources) (buf : List UInt8) : C (Option DbxBuffer) := do
  let machine ← getPeArch buf
  let i := (machineToArch machine).index
  if i = ArchType.unknown.index then return none
  else
    let archname ← entry efiArchname i
    let useLocal ← useLocalDbx env.readSetting64 i
    let cached := if useLocal then
      env.readFile ((dbxPath env.appDataDir archname).take (maxPath - 1)) else []
    if cached = [] then return (env.getResource i).map fun dbx => ⟨dbx, []⟩
    else return some ⟨cached, [0]⟩

def dbxData (env : DbxSources) (buf : List UInt8) : C (Option (List UInt8)) := do
  let dbx ← dbxBuffer env buf
  return dbx.map DbxBuffer.data

/-- The loop over the signatures: `n` are left, the next one is number `i`. -/
def hashLoop (hash block : List UInt8) (fluffSize signatureSize : ℕ) :
    ℕ → ℕ → C Bool
  | 0, _ => return false
  | n + 1, i => do
      let data ← loadN block ((fluffSize + i * signatureSize) % 2 ^ 32) 32
      if hash = data then return true
      else hashLoop hash block fluffSize signatureSize n (i + 1)

/-- `IsRevokedByDbx` from the check of `dbx_size` on. -/
def revokedIn (hash : List UInt8) (dbx : DbxBuffer) : C Bool := do
  let dbxSize := dbx.data.length
  -- sizeof(EFI_VARIABLE_AUTHENTICATION_2)
  if dbxSize ≤ 41 then return false
  else
    let dwLength ← loadLE dbx.block 16 4
    let list := (dwLength + 16) % 2 ^ 32
    if dbxSize ≤ list then return false
    else
      let fluffSize := (list + 28) % 2 ^ 32
      if dbxSize ≤ fluffSize then return false
      else
        let type ← loadN dbx.block list 16
        if type ≠ efiCertSha256Guid then return false
        else
          let listSize ← loadLE dbx.block (list + 16) 4
          let headerSize ← loadLE dbx.block (list + 20) 4
          let signatureSize ← loadLE dbx.block (list + 24) 4
          let fluffSize := (fluffSize + headerSize) % 2 ^ 32
          assertThat (signatureSize ≠ 0)
          -- the first difference is a `UINT32`, the second one a `size_t`
          let room := (((listSize + 2 ^ 32 - headerSize) % 2 ^ 32) +
            2 ^ 64 - 28) % 2 ^ 64
          let quotient ← divide room signatureSize
          let nbEntries := quotient % 2 ^ 32
          assertThat ((fluffSize + nbEntries * signatureSize) % 2 ^ 32 ≤ dbxSize)
          hashLoop hash dbx.block ((fluffSize + 16) % 2 ^ 32) signatureSize
            nbEntries 0

def isRevokedByDbx (env : DbxSources) (hash buf : List UInt8) : C Bool := do
  match ← dbxBuffer env buf with
  | none => return false
  | some dbx => revokedIn hash dbx

/-! ## The walk over a well-formed list -/

/-- The loop over the signatures `sigs` that end the first list. -/
theorem hashLoop_eq (hash block pre post : List UInt8) {fluffSize : ℕ}
    (hfluff : fluffSize = pre.length + 16) :
    ∀ (sigs done : List (List UInt8)),
      block = pre ++ ((done ++ sigs).flatten ++ post) →
      (∀ s ∈ done ++ sigs, s.length = 48) →
      pre.length + (done ++ sigs).flatten.length < 2 ^ 32 →
      hashLoop hash block fluffSize 48 sigs.length done.length
        = .ok (decide (hash ∈ sigs.map (List.drop 16)))
  | [], done, _, _, _ => by simp [hashLoop]
  | s :: sigs, done, hblock, hlen, hlt => by
      have hs : s.length = 48 := hlen s (by simp)
      have hdone : done.flatten.length = done.length * 48 :=
        flatten_length fun d hd => hlen d (by simp [hd])
      have hcut :
          block = (pre ++ done.flatten) ++ (s ++ (sigs.flatten ++ post)) := by
        rw [hblock]
        simp
      have htotal := congrArg List.length hcut
      simp only [List.length_append] at htotal
      have hbound : pre.length + (done.flatten.length
          + (s.length + sigs.flatten.length)) < 2 ^ 32 := by
        simpa only [List.flatten_append, List.flatten_cons, List.length_append] using hlt
      have hoff : (fluffSize + done.length * 48) % 2 ^ 32
          = (pre ++ done.flatten).length + 16 := by
        rw [List.length_append, Nat.mod_eq_of_lt (by omega)]
        omega
      have hload : loadN block ((fluffSize + done.length * 48) % 2 ^ 32) 32
          = .ok (s.drop 16) := by
        have h16 : s.drop 16 ++ (sigs.flatten ++ post)
            = (s ++ (sigs.flatten ++ post)).drop 16 := by
          rw [List.drop_append_of_le_length (by omega)]
        have h32 : (s.drop 16).length = 32 := by rw [List.length_drop, hs]
        rw [hoff, loadN_of_le (by rw [List.length_append]; omega), hcut,
          ← List.drop_drop, List.drop_left, ← h16, ← h32, List.take_left]
      have ih := hashLoop_eq hash block pre post hfluff sigs (done ++ [s])
        (by rw [hblock]; simp)
        (by simpa using hlen) (by simpa using hlt)
      rw [List.length_cons, hashLoop, hload, C.ok_bind]
      by_cases heq : hash = s.drop 16
      · simp [heq]
      · rw [if_neg heq]
        simp only [List.length_append, List.length_singleton] at ih
        rw [ih]
        simp [heq]

/-- Neither subtraction of `room` wraps where the list has its header and its
signatures. -/
theorem room_unwrapped {size header n : ℕ} (hsize : size = 28 + header + n) (hlt : size < 2 ^ 32) :
    ((size + 2 ^ 32 - header) % 2 ^ 32 + 2 ^ 64 - 28) % 2 ^ 64 = n := by
  have hdiff : (size + 2 ^ 32 - header) % 2 ^ 32 = 28 + n := by
    rw [Nat.sub_add_comm (by omega), Nat.add_mod_right, Nat.mod_eq_of_lt (by omega)]
    omega
  rw [hdiff, Nat.sub_add_comm (by omega), Nat.add_mod_right, Nat.mod_eq_of_lt (by omega)]
  omega

/-- The walk over a DBX whose first list `l` stands behind `front`. -/
theorem revokedIn_of_beginsAt (hash behind : List UInt8)
    {front lists r : List UInt8} {l : SignatureList} (hbegins : l.BeginsAt lists r)
    (hsha : l.isSha256) (h48 : l.signatureSize = 48) (hfront : 40 ≤ front.length)
    (hdw : loadLE (front ++ (lists ++ behind)) 16 4 = .ok (front.length - 16))
    (hlt : (front ++ lists).length < 2 ^ 32) :
    revokedIn hash ⟨front ++ lists, behind⟩ = .ok (decide (hash ∈ l.hashes)) := by
  have hlength : lists.length = l.size + r.length := hbegins.fields.2.2.2.2.1
  replace hbegins : l.BeginsAt (lists ++ behind) (r ++ behind) := hbegins.append behind
  have hfields := hbegins.fields
  rw [h48] at hfields
  obtain ⟨htype, hlistSize, hheaderSize, hsigSize, hlists, -⟩ := hfields
  obtain ⟨f₁, f₂, f₃, h₁, h₂, h₃, -, -, -, hbytes⟩ := hbegins
  have hsigs : ∀ s ∈ l.signatures, s.length = 48 :=
    fun s hs => (l.signature_length s hs).trans h48
  have hflat := flatten_length hsigs
  have hsize := l.size_eq
  have htypeLen := l.type_length
  have hcount : 1 ≤ l.signatures.length := List.length_pos_iff.mpr l.nonempty
  rw [List.length_append] at hlt
  -- the offsets the walk computes do not wrap
  have hlist : (front.length - 16 + 16) % 2 ^ 32 = front.length := by
    rw [Nat.mod_eq_of_lt (by omega)]
    omega
  have hfluff : (front.length + 28) % 2 ^ 32 = front.length + 28 :=
    Nat.mod_eq_of_lt (by omega)
  have hheader : (front.length + 28 + l.header.length) % 2 ^ 32
      = front.length + 28 + l.header.length := Nat.mod_eq_of_lt (by omega)
  have hroom : ((l.size + 2 ^ 32 - l.header.length) % 2 ^ 32 + 2 ^ 64 - 28)
      % 2 ^ 64 = l.signatures.length * 48 := room_unwrapped (by omega) (by omega)
  have hnb : l.signatures.length * 48 / 48 % 2 ^ 32 = l.signatures.length := by
    rw [Nat.mul_div_cancel _ (by decide), Nat.mod_eq_of_lt (by omega)]
  have hend : (front.length + 28 + l.header.length +
      l.signatures.length * 48) % 2 ^ 32 ≤ (front ++ lists).length := by
    rw [List.length_append, Nat.mod_eq_of_lt (by omega)]
    omega
  have hdata : (front.length + 28 + l.header.length + 16) % 2 ^ 32
      = (front ++ (l.type ++ (f₁ ++ (f₂ ++ (f₃ ++ l.header))))).length + 16 := by
    rw [Nat.mod_eq_of_lt (by omega)]
    simp only [List.length_append]
    omega
  have hloop := hashLoop_eq hash (front ++ (lists ++ behind)) _ (r ++ behind) hdata
    l.signatures [] (by rw [hbytes]; simp) (by simpa using hsigs)
    (by simp only [List.nil_append, List.length_append]; omega)
  have hload0 := loadN_append_right front (lists ++ behind) (k := 0) (n := 16) (by omega)
  rw [Nat.add_zero, List.drop_zero, htype, hsha] at hload0
  have hload1 := loadLE_append_right front (lists ++ behind) (k := 16) (n := 4) (by omega)
  have hload2 := loadLE_append_right front (lists ++ behind) (k := 20) (n := 4) (by omega)
  have hload3 := loadLE_append_right front (lists ++ behind) (k := 24) (n := 4) (by omega)
  rw [← listSizeOf, hlistSize] at hload1
  rw [← headerSizeOf, hheaderSize] at hload2
  rw [← signatureSizeOf, hsigSize] at hload3
  have hblock : (DbxBuffer.mk (front ++ lists) behind).block = front ++ (lists ++ behind) :=
    List.append_assoc _ _ _
  unfold revokedIn
  rw [hblock]
  dsimp only
  rw [if_neg (by rw [List.length_append]; omega), hdw, C.ok_bind, hlist]
  rw [if_neg (by rw [List.length_append]; omega), hfluff,
    if_neg (by rw [List.length_append]; omega), hload0, C.ok_bind,
    if_neg (by simp), hload1, C.ok_bind, hload2, C.ok_bind, hload3, C.ok_bind,
    hheader, hroom]
  have hquot : divide (l.signatures.length * 48) 48
      = .ok (l.signatures.length * 48 / 48) := rfl
  rw [hquot, C.ok_bind, hnb, decide_eq_true hend]
  exact hloop

/-- **On a well-formed DBX the walk finds exactly the hashes of the first
list**, without a fault, whatever is behind it. -/
theorem revokedIn_of_format (hash behind : List UInt8) {data : List UInt8}
    {first : SignatureList} {ls : List SignatureList}
    (hformat : DbxFormat data first ls) (hlt : data.length < 2 ^ 32) :
    revokedIn hash ⟨data, behind⟩ = .ok (decide (hash ∈ first.hashes)) := by
  obtain ⟨time, authSize, auth, lists, rfl, htime, hauth, h24, hvalue, hlists,
    hsha, hsized⟩ := hformat
  obtain ⟨r, hbegins⟩ : ∃ r, first.BeginsAt lists r := by
    cases hlists with
    | cons h _ => exact ⟨_, h⟩
  have hdata : time ++ (authSize ++ (auth ++ lists))
      = (time ++ (authSize ++ auth)) ++ lists := by simp
  have hblock : time ++ (authSize ++ (auth ++ (lists ++ behind)))
      = (time ++ (authSize ++ auth)) ++ (lists ++ behind) := by simp
  have hfront : (time ++ (authSize ++ auth)).length = 20 + auth.length := by
    simp only [List.length_append]
    omega
  have hdw := loadLE_append_right time (authSize ++ (auth ++ (lists ++ behind)))
    (k := 0) (n := 4) (by simp only [List.length_append]; omega)
  rw [Nat.add_zero, List.drop_zero, htime, ← hauth, List.take_left, hvalue,
    hauth, hblock] at hdw
  rw [hdata] at hlt ⊢
  exact revokedIn_of_beginsAt hash behind hbegins hsha
    (hsized first List.mem_cons_self hsha) (by omega)
    (hdw.trans (congrArg Except.ok (by omega))) hlt

/-! ## The agreement of validator and consumer -/

theorem dbxData_eq_some {env : DbxSources} {buf data : List UInt8} :
    dbxData env buf = .ok (some data) ↔
      ∃ behind, dbxBuffer env buf = .ok (some ⟨data, behind⟩) := by
  rw [dbxData, C.bind_eq_ok]
  constructor
  · rintro ⟨dbx, hbuffer, hdata⟩
    obtain ⟨⟨data', behind⟩, rfl, rfl⟩ := Option.map_eq_some_iff.mp (Except.ok.inj hdata)
    exact ⟨behind, hbuffer⟩
  · rintro ⟨behind, hbuffer⟩
    exact ⟨_, hbuffer, rfl⟩

theorem dbxData_length_lt {env : DbxSources} {buf data : List UInt8}
    (h : dbxData env buf = .ok (some data)) : data.length < 2 ^ 32 := by
  obtain ⟨behind, h⟩ := dbxData_eq_some.mp h
  unfold dbxBuffer at h
  cases hm : getPeArch buf with
  | error e => simp [hm] at h
  | ok machine =>
      simp only [hm, C.ok_bind] at h
      split at h
      · simp at h
      · cases hn : entry efiArchname (machineToArch machine).index with
        | error e => simp [hn] at h
        | ok archname =>
            cases hl : useLocalDbx env.readSetting64
                (machineToArch machine).index with
            | error e => simp [hn, hl] at h
            | ok useLocal =>
                simp only [hn, hl, C.ok_bind, C.pure_eq] at h
                generalize hc : (if useLocal = true then _ else _) = cached at h
                have hcached : cached.length < 2 ^ 32 := by
                  rw [← hc]
                  split
                  · exact env.readFile_lt _
                  · simp
                split at h
                · obtain ⟨resource, hresource, hdata⟩ :=
                    Option.map_eq_some_iff.mp (Except.ok.inj h)
                  obtain ⟨rfl, -⟩ := DbxBuffer.mk.inj hdata
                  exact env.getResource_lt _ resource hresource
                · cases Option.some.inj (Except.ok.inj h)
                  exact hcached

theorem isRevokedByDbx_eq (hash : List UInt8) {env : DbxSources}
    {buf data : List UInt8} (hrun : dbxData env buf = .ok (some data))
    {first : SignatureList} {ls : List SignatureList}
    (hformat : DbxFormat data first ls) :
    isRevokedByDbx env hash buf = .ok (decide (hash ∈ first.hashes)) := by
  obtain ⟨behind, hbuffer⟩ := dbxData_eq_some.mp hrun
  rw [isRevokedByDbx, hbuffer, C.ok_bind]
  exact revokedIn_of_format hash behind hformat (dbxData_length_lt hrun)

/-- **What the validator accepts, the check reads without a fault**: no
assertion fails, nothing is divided by zero, no offset is outside the buffer,
and the verdict is whether the hash is the data of a signature of the first
list. -/
theorem isRevokedByDbx_of_valid (env : DbxSources) (hash buf data : List UInt8)
    (hsize : data.length ≤ 64 * 1024 * 1024)
    (hvalid : nawamDbxValid data = true)
    (hrun : dbxData env buf = .ok (some data)) :
    (∃ first ls, DbxFormat data first ls) ∧
      ∀ first ls, DbxFormat data first ls →
        isRevokedByDbx env hash buf = .ok (decide (hash ∈ first.hashes)) := by
  refine ⟨(nawamDbxValid_iff data).mp hvalid, ?_⟩
  intro first ls hformat
  obtain ⟨behind, hbuffer⟩ := dbxData_eq_some.mp hrun
  rw [isRevokedByDbx, hbuffer, C.ok_bind]
  exact revokedIn_of_format hash behind hformat (by omega)

/-- The check finds every hash of every SHA-256 list of the DBX. -/
def FindsEveryHash (env : DbxSources) (buf : List UInt8)
    (lists : List SignatureList) : Prop :=
  ∀ hash, (∃ l ∈ lists, l.isSha256 ∧ hash ∈ l.hashes) →
    isRevokedByDbx env hash buf = .ok true

/-- **The hashes of the first list are found**, and those of all SHA-256
lists exactly if the lists behind the first one add none. -/
theorem findsEveryHash_iff (env : DbxSources) (buf data : List UInt8)
    (hvalid : nawamDbxValid data = true)
    (hrun : dbxData env buf = .ok (some data)) :
    (∃ first ls, DbxFormat data first ls) ∧
      ∀ first ls, DbxFormat data first ls →
        (∀ hash ∈ first.hashes, isRevokedByDbx env hash buf = .ok true) ∧
        (FindsEveryHash env buf (first :: ls) ↔
          ∀ l ∈ ls, l.isSha256 → ∀ hash ∈ l.hashes, hash ∈ first.hashes) := by
  refine ⟨(nawamDbxValid_iff data).mp hvalid, ?_⟩
  intro first ls hformat
  have hverdict : ∀ hash, isRevokedByDbx env hash buf = .ok true ↔
      hash ∈ first.hashes := by
    intro hash
    rw [isRevokedByDbx_eq hash hrun hformat]
    simp
  refine ⟨fun hash hmem => (hverdict hash).mpr hmem, ?_⟩
  constructor
  · intro hall l hl hsha hash hmem
    exact (hverdict hash).mp
      (hall hash ⟨l, List.mem_cons_of_mem first hl, hsha, hmem⟩)
  · rintro hmore hash ⟨l, hl, hsha, hmem⟩
    rw [hverdict]
    rcases List.mem_cons.mp hl with rfl | hl'
    · exact hmem
    · exact hmore l hl' hsha hash hmem

/-! ## Two small DBX files -/

/-- The headers of an image for 32-bit x86. -/
def tinyImage : List UInt8 :=
  [0x4d, 0x5a] ++ List.replicate 58 0 ++ [64, 0, 0, 0] ++
    [0x50, 0x45, 0, 0, 0x4c, 0x01]

theorem noFile_lt : List UInt8 → ([] : List UInt8).length < 2 ^ 32 := fun _ => by decide

theorem noResource_lt : ℕ → ∀ dbx ∈ (none : Option (List UInt8)), dbx.length < 2 ^ 32 := nofun

theorem tinyDbx_lt : ℕ → ∀ dbx ∈ some tinyDbx, dbx.length < 2 ^ 32 := by
  intro i d hd
  simp only [Option.mem_some_iff] at hd
  rw [← hd]
  decide +kernel

/-- No marker, no cache, and `tinyDbx` in the resources. -/
def tinySources : DbxSources where
  readSetting64 := fun _ => 0
  appDataDir := []
  readFile := fun _ => []
  getResource := fun _ => some tinyDbx
  readFile_lt := noFile_lt
  getResource_lt := tinyDbx_lt

theorem tinySources_run : dbxData tinySources tinyImage = .ok (some tinyDbx) := by
  decide +kernel

theorem isRevokedByDbx_of_valid_tiny :
    isRevokedByDbx tinySources (List.replicate 32 1) tinyImage
      = .ok (decide (List.replicate 32 1 ∈ (tinyList 1).hashes)) :=
  (isRevokedByDbx_of_valid tinySources (List.replicate 32 1) tinyImage tinyDbx
    (by decide +kernel) tinyDbx_valid tinySources_run).2 (tinyList 1)
    [tinyList 2] tinyDbx_format

/-- A hash that stands in the second list only is not found. -/
theorem not_findsEveryHash_tiny :
    ¬ ∀ (env : DbxSources) (buf data : List UInt8) (first : SignatureList)
      (ls : List SignatureList), nawamDbxValid data = true →
      dbxData env buf = .ok (some data) → DbxFormat data first ls →
      FindsEveryHash env buf (first :: ls) := by
  intro h
  have hfinds := h tinySources tinyImage tinyDbx (tinyList 1) [tinyList 2]
    tinyDbx_valid tinySources_run tinyDbx_format
  have htrue := hfinds (List.replicate 32 2)
    ⟨tinyList 2, by simp, rfl, by simp [SignatureList.hashes, tinyList]⟩
  exact absurd htrue (by decide +kernel)

theorem findsEveryHash_iff_tiny :
    nawamDbxValid tinyDbx = true ∧
    ∀ hash ∈ (tinyList 1).hashes,
      isRevokedByDbx tinySources hash tinyImage = .ok true :=
  ⟨tinyDbx_valid, ((findsEveryHash_iff tinySources tinyImage tinyDbx
    tinyDbx_valid tinySources_run).2 (tinyList 1) [tinyList 2]
    tinyDbx_format).1⟩

/-! ## Any file -/

def firstListAt (block : List UInt8) : ℕ := (nawamReadLE32 block 16 + 16) % 2 ^ 32

/-- `fluff_size` behind the header of the list -/
def fluffSizeOf (block : List UInt8) : ℕ :=
  ((firstListAt block + 28) % 2 ^ 32 +
    headerSizeOf (block.drop (firstListAt block))) % 2 ^ 32

/-- `nb_entries`, of the list that `s` begins with -/
def nbEntriesOf (s : List UInt8) : ℕ :=
  (((listSizeOf s + 2 ^ 32 - headerSizeOf s) % 2 ^ 32 + 2 ^ 64 - 28) % 2 ^ 64)
    / signatureSizeOf s % 2 ^ 32

/-- Where entry `i` is compared with the hash -/
def entryAt (fluffSize signatureSize i : ℕ) : ℕ :=
  (fluffSize + i * signatureSize) % 2 ^ 32

/-- The entries are inside of the block, up to the first one that is the hash. -/
def EntriesFit (hash block : List UInt8) (fluffSize signatureSize n i : ℕ) :
    Prop :=
  ∀ k < n, (∀ j < k,
      hash ≠ (block.drop (entryAt fluffSize signatureSize (i + j))).take 32) →
    entryAt fluffSize signatureSize (i + k) + 32 ≤ block.length

/-- What the walk needs of a DBX of `size` bytes that nobody has validated, in
its block: it is too short for a list, or the list at the place that the
authentication block declares is inside of it, and is not one of SHA-256 hashes
or has entries of some size of which those that are looked at are inside too. -/
def WalkFits (hash block : List UInt8) (size : ℕ) : Prop :=
  let s := block.drop (firstListAt block)
  41 < size → firstListAt block < size → (firstListAt block + 28) % 2 ^ 32 < size →
    firstListAt block + 16 ≤ block.length ∧
    (s.take 16 = efiCertSha256Guid →
      firstListAt block + 28 ≤ block.length ∧ 0 < signatureSizeOf s ∧
      (fluffSizeOf block + nbEntriesOf s * signatureSizeOf s) % 2 ^ 32 ≤ size ∧
      EntriesFit hash block ((fluffSizeOf block + 16) % 2 ^ 32) (signatureSizeOf s)
        (nbEntriesOf s) 0)

/-- The loop runs without a fault exactly where its entries fit. -/
theorem hashLoop_ok_iff (hash block : List UInt8) (fluffSize signatureSize : ℕ) :
    ∀ n i : ℕ, (∃ v, hashLoop hash block fluffSize signatureSize n i = .ok v) ↔
      EntriesFit hash block fluffSize signatureSize n i
  | 0, i => ⟨fun _ k hk => absurd hk (Nat.not_lt_zero k), fun _ => ⟨false, rfl⟩⟩
  | n + 1, i => by
      rw [hashLoop]
      by_cases hfits : entryAt fluffSize signatureSize i + 32 ≤ block.length
      · have hload := loadN_of_le hfits
        simp only [entryAt] at hload
        rw [hload, C.ok_bind]
        by_cases heq :
            hash = (block.drop (entryAt fluffSize signatureSize i)).take 32
        · -- the first entry ends the loop, so nothing is asked of the others
          simp only [entryAt] at heq
          rw [if_pos heq]
          refine ⟨fun _ k _ hbefore => ?_, fun _ => ⟨true, rfl⟩⟩
          cases k with
          | zero => exact hfits
          | succ k => exact absurd heq (hbefore 0 (Nat.succ_pos k))
        · have hne := heq
          simp only [entryAt] at hne
          rw [if_neg hne, hashLoop_ok_iff hash block fluffSize signatureSize n (i + 1)]
          constructor
          · intro hrest k hk hbefore
            cases k with
            | zero => exact hfits
            | succ k =>
                rw [show i + (k + 1) = i + 1 + k by omega]
                refine hrest k (by omega) fun j hj => ?_
                rw [show i + 1 + j = i + (j + 1) by omega]
                exact hbefore (j + 1) (by omega)
          · intro hall k hk hbefore
            rw [show i + 1 + k = i + (k + 1) by omega]
            refine hall (k + 1) (by omega) fun j hj => ?_
            cases j with
            | zero => exact heq
            | succ j =>
                rw [show i + (j + 1) = i + 1 + j by omega]
                exact hbefore j (by omega)
      · have hload : loadN block ((fluffSize + i * signatureSize) % 2 ^ 32) 32
            = .error .outOfBounds := if_neg hfits
        rw [hload, C.error_bind]
        refine ⟨fun ⟨_, hv⟩ => (nomatch hv), fun hall => ?_⟩
        exact absurd (hall 0 (Nat.succ_pos n) (fun j hj => absurd hj (by omega))) hfits

theorem returns_iff {P : Prop} (b : Bool) (hP : P) :
    (∃ v, (pure b : C Bool) = .ok v) ↔ P :=
  ⟨fun _ => hP, fun _ => ⟨b, rfl⟩⟩

theorem faults_iff {P : Prop} (e : Fault) (hP : ¬P) :
    (∃ v, (.error e : C Bool) = .ok v) ↔ P :=
  ⟨fun ⟨_, hv⟩ => (nomatch hv), fun h => absurd h hP⟩

/-- Of three reads the last one faults, if none in front of it does. -/
theorem faults_of_third {α : Type} {x y z : C ℕ} {e : Fault} (hz : z = .error e)
    (f : ℕ → ℕ → ℕ → C α) : ∃ e', (do
      let a ← x
      let b ← y
      let c ← z
      f a b c) = .error e' := by
  subst hz
  cases x with
  | error e' => exact ⟨e', rfl⟩
  | ok a =>
      cases y with
      | error e' => exact ⟨e', rfl⟩
      | ok b => exact ⟨e, rfl⟩

theorem revokedIn_ok_iff (hash : List UInt8) (dbx : DbxBuffer) :
    (∃ v, revokedIn hash dbx = .ok v) ↔ WalkFits hash dbx.block dbx.data.length := by
  have hblock : dbx.data.length ≤ dbx.block.length := by
    rw [DbxBuffer.block, List.length_append]
    omega
  unfold revokedIn WalkFits
  generalize dbx.block = block at *
  generalize dbx.data.length = size at *
  dsimp only
  by_cases hshort : size ≤ 41
  · rw [if_pos hshort]
    exact returns_iff false fun h => absurd h (by omega)
  rw [if_neg hshort, loadLE_of_le (by omega), C.ok_bind]
  rw [← nawamReadLE32, ← firstListAt]
  by_cases hlist : size ≤ firstListAt block
  · rw [if_pos hlist]
    exact returns_iff false fun _ h => absurd h (by omega)
  rw [if_neg hlist]
  by_cases hheader : size ≤ (firstListAt block + 28) % 2 ^ 32
  · rw [if_pos hheader]
    exact returns_iff false fun _ _ h => absurd h (by omega)
  rw [if_neg hheader]
  by_cases htype : firstListAt block + 16 ≤ block.length
  case neg =>
      rw [show loadN block (firstListAt block) 16 = .error .outOfBounds from
        if_neg htype, C.error_bind]
      exact faults_iff _ fun h => htype (h (by omega) (by omega) (by omega)).1
  rw [loadN_of_le htype, C.ok_bind]
  by_cases hsha : (block.drop (firstListAt block)).take 16 = efiCertSha256Guid
  case neg =>
      rw [if_pos hsha]
      exact returns_iff false fun _ _ _ => ⟨htype, fun h => absurd h hsha⟩
  rw [if_neg (not_not.mpr hsha)]
  by_cases hfields : firstListAt block + 28 ≤ block.length
  case neg =>
      have hlast : loadLE block (firstListAt block + 24) 4 = .error .outOfBounds := by
        rw [loadLE, loadN, if_neg (by omega)]
        rfl
      obtain ⟨e, he⟩ := faults_of_third hlast _
      rw [he]
      exact faults_iff e fun h =>
        hfields ((h (by omega) (by omega) (by omega)).2 hsha).1
  have hdrop (k : ℕ) : leValue ((block.drop (firstListAt block + k)).take 4)
      = leValue (((block.drop (firstListAt block)).drop k).take 4) := by
    rw [List.drop_drop]
  rw [loadLE_of_le (by omega), loadLE_of_le (by omega), loadLE_of_le (by omega)]
  simp only [C.ok_bind]
  rw [hdrop 16, hdrop 20, hdrop 24, ← listSizeOf, ← headerSizeOf,
    ← signatureSizeOf, ← fluffSizeOf]
  generalize hs : block.drop (firstListAt block) = s at *
  by_cases hzero : signatureSizeOf s = 0
  · rw [hzero]
    refine faults_iff .assertion fun h => ?_
    have hpos := ((h (by omega) (by omega) (by omega)).2 hsha).2.1
    omega
  rw [show assertThat (decide (signatureSizeOf s ≠ 0)) = .ok () by simp [hzero],
    C.ok_bind, divide_of_pos (by omega), C.ok_bind, ← nbEntriesOf]
  by_cases hend : (fluffSizeOf block + nbEntriesOf s * signatureSizeOf s) % 2 ^ 32
      ≤ size
  case neg =>
      rw [decide_eq_false hend]
      exact faults_iff .assertion fun h =>
        hend ((h (by omega) (by omega) (by omega)).2 hsha).2.2.1
  rw [decide_eq_true hend, assertThat_true, C.ok_bind, hashLoop_ok_iff]
  constructor
  · exact fun hfits _ _ _ => ⟨htype, fun _ => ⟨hfields, by omega, hend, hfits⟩⟩
  · exact fun h => ((h (by omega) (by omega) (by omega)).2 hsha).2.2.2

/-- **On a file that was not validated the check is safe exactly where the
walk fits.** -/
theorem isRevokedByDbx_safe_iff (env : DbxSources) (hash buf : List UInt8)
    (dbx : DbxBuffer) (hrun : dbxBuffer env buf = .ok (some dbx)) :
    (∃ v, isRevokedByDbx env hash buf = .ok v) ↔
      WalkFits hash dbx.block dbx.data.length := by
  rw [isRevokedByDbx, hrun, C.ok_bind]
  exact revokedIn_ok_iff hash dbx

/-- A cached file is preferred to the resources. -/
def cachedSources (file : List UInt8) (h : file.length < 2 ^ 32) : DbxSources where
  readSetting64 := fun _ => 2 ^ 62
  appDataDir := []
  readFile := fun _ => file
  getResource := fun _ => none
  readFile_lt := fun _ => h
  getResource_lt := noResource_lt

/-- A list with the size of its signatures, up to its first signature. -/
def cutList (listSize signatureSize : UInt8) : List UInt8 :=
  List.replicate 16 0 ++ ([24, 0, 0, 0] ++ (List.replicate 20 0 ++
    (efiCertSha256Guid ++ ([listSize, 0, 0, 0] ++ ([0, 0, 0, 0] ++
      ([signatureSize, 0, 0, 0] ++ [0]))))))

/-- A file that ends one byte in front of the end of its only entry: the NUL
behind the file is compared too. -/
def nulEnded : List UInt8 := cutList 29 1 ++ List.replicate 46 0

theorem isRevokedByDbx_safe_iff_nulEnded :
    ∃ v, isRevokedByDbx (cachedSources nulEnded (by decide)) (List.replicate 32 0)
      tinyImage = .ok v :=
  (isRevokedByDbx_safe_iff (cachedSources nulEnded (by decide)) (List.replicate 32 0)
    tinyImage ⟨nulEnded, [0]⟩ (by decide)).mpr
    (by unfold WalkFits EntriesFit; decide)

/-- A cached file whose signatures have no size fails an assertion, and would
then divide by zero; one whose signatures are shorter than a hash is read
behind its end. -/
theorem isRevokedByDbx_faults :
    isRevokedByDbx (cachedSources (cutList 28 0) (by decide))
      (List.replicate 32 1) tinyImage = .error .assertion ∧
    isRevokedByDbx (cachedSources (cutList 29 1) (by decide))
      (List.replicate 32 1) tinyImage = .error .outOfBounds := by
  constructor <;> decide

end Nawam
