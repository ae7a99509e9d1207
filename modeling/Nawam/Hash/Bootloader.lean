import Nawam.Hash.Pe256
import Nawam.Hash.RevokedByDbx
import Nawam.Hash.RevokedBySbat
import Nawam.Hash.Streaming
import Nawam.Parser.PeDirectories
import Nawam.Parser.Thumbprint

/-!
# Revoked bootloaders

`IsBootloaderRevoked` of `hash.c`: the five checks of a signed bootloader, one
after the other until one of them fires, over the image in one buffer.

One of them, `IsRevokedBySbat`, cuts the rows of the `.sbat` section in place.
What is left of the image afterwards is said by `Tokenized`: separators of that
section that have become NULs, and nothing else. `isBootloaderRevoked_tokenizes`
is that for a call, and says when the image is left as it was.
-/

namespace Nawam

open Ascii

/-! ## Source -/

/-- A fault of an access to the image, or of something else. -/
inductive Stop where
  | image (fault : Fault)
  | elsewhere (fault : Fault)
deriving DecidableEq, Repr

abbrev OverImage (α : Type) : Type := Except Stop α

/-- A part that reads the image only. -/
def onImage {α : Type} (x : C α) : OverImage α := x.mapError .image

/-- A part that does not read it. -/
def elsewhere {α : Type} (x : C α) : OverImage α := x.mapError .elsewhere

structure CertInfo where
  name : List UInt8
  thumbprint : List UInt8
deriving DecidableEq, Repr

/-- The crypto API: how many bytes of a blob it reads, which the blob decides,
and the certificate it finds for them. -/
structure CryptApi where
  reads : List UInt8 → ℕ
  query : List UInt8 → Option CertInfo

structure BootloaderEnv where
  crypt : CryptApi
  lib : ParseLibrary
  cpu : HashCpu
  dbx : DbxSources
  /-- `pe256ssp`, by hashes -/
  pe256ssp : List (List UInt8)
  /-- `sbat_entries`, and whether the allocations of its fallback succeed -/
  sbatEntries : Option SbatTable
  sbatStrdup : Bool
  sbatCalloc : Bool
  /-- `utf8_to_wchar` succeeds -/
  wchar : Bool
  expertMode : Bool
  /-- `sb_revoked_certs`, and its fallback -/
  sbRevokedCerts : Option ThumbprintList
  certStrdup : Bool
  certCalloc : Bool

/-- `GetIssuerCertificateInfo`: nothing where it returns 0. The blob is said to
have the length of the whole certificate, but starts behind its header. -/
def getIssuerCertificateInfo (crypt : CryptApi) (buf : List UInt8) :
    Option ℕ → C (Option CertInfo)
  | none => return none
  | some cert => do
      let dwLength ← loadLE buf cert 4
      if dwLength = 0 then return none
      else
        let blob ← loadN buf (cert + 8)
          (crypt.reads ((buf.drop (cert + 8)).take dwLength))
        return crypt.query blob

/-- The bytes of a region; an empty one is not read. -/
def regionBytes (buf : List UInt8) (r : ImageRegion) : C (List UInt8) :=
  if r.2 = 0 then return [] else loadN buf r.1 r.2

def regionsBytes (buf : List UInt8) : List ImageRegion → C (List (List UInt8))
  | [] => return []
  | r :: regs => do
      let bytes ← regionBytes buf r
      let rest ← regionsBytes buf regs
      return bytes :: rest

def pe256Buffer (lib : ParseLibrary) (cpu : HashCpu) (buf : List UInt8) :
    OverImage (Option (List UInt8)) := do
  if buf.length < 1024 ∨ 64 * 1048576 < buf.length then return none
  else
    match ← onImage (efiImageParse lib buf) with
    | none => return none
    | some regs =>
        let pieces ← onImage (regionsBytes buf regs)
        let hash ← elsewhere (hashStream cpu .sha256
          (pieces.map fun bytes => ⟨bytes, bytes.length, le_rfl⟩))
        return some hash

def isUpper (c : UInt8) : Bool := 65 ≤ c && c ≤ 90

/-- `rsrc_name`: `utf8_to_wchar` of ASCII letters -/
def rsrcName (product : List UInt8) : List UInt16 := product.map (·.toUInt16)

/-- The version in the resource of a name, in the tree at `root`. -/
def resourceVersion (fuel : ℕ) (buf name : List UInt8) (root : ℕ) :
    C (Option ℕ) := do
  let r ← findResourceRva buf (rsrcName name) root fuel root false
  if r.rva = 0 ∨ r.len ≠ 4 then return none
  else
    match ← rvaToPhysical buf r.rva with
    | none => return none
    | some svnVer =>
        let version ← loadLE buf svnVer 4
        return some version

/-- The version that the image has for a name, if it has one. -/
def svnVersion (fuel : ℕ) (buf name : List UInt8) : C (Option ℕ) := do
  let pe ← loadLE buf 0x3c 4
  if 2 ^ 31 ≤ pe then .error .outOfBounds
  else
    let machine ← loadLE buf (pe + 4) 2
    -- IMAGE_DIRECTORY_ENTRY_RESOURCE, the whole structure
    let virtualAddress ← loadLE buf (pe + dataDirectory machine 2) 4
    let _ ← loadLE buf (pe + dataDirectory machine 2 + 4) 4
    match ← rvaToPhysical buf virtualAddress with
    | none => return none
    | some root => resourceVersion fuel buf name root

def isRevokedBySvn (fuel : ℕ) (wchar : Bool) (buf : List UInt8) :
    SbatTable → C Bool
  | [] => return false
  | (product, version) :: entries => do
      if !product.all isUpper || !wchar then isRevokedBySvn fuel wchar buf entries
      else
        match ← svnVersion fuel buf product with
        | none => isRevokedBySvn fuel wchar buf entries
        | some svnVer =>
            if svnVer < version then return true
            else isRevokedBySvn fuel wchar buf entries

def dbSbRevokedTxt : List UInt8 := text "580a6f4cc4e4b669b9ebdc1b2b3e087b80d0678d"

/-- The loop of `IsRevokedByCert`: `n` are left, the next one is number `i`. -/
def thumbprintIn (thumbprint list : List UInt8) : ℕ → ℕ → C Bool
  | 0, _ => return false
  | n + 1, i => do
      let revoked ← loadN list (i * sha1Hashsize) sha1Hashsize
      if thumbprint = revoked then return true
      else thumbprintIn thumbprint list n (i + 1)

/-- `sb_revoked_certs` behind its fallback -/
def revokedCerts (env : BootloaderEnv) : C (Option ThumbprintList) :=
  match env.sbRevokedCerts with
  | some certs => return some certs
  | none =>
      if env.certStrdup then
        getThumbprintEntries env.certCalloc (dbSbRevokedTxt ++ [nul])
      else return none

def isRevokedByCert (env : BootloaderEnv) (info : CertInfo) : C Bool := do
  if !env.expertMode then return false
  else
    match ← revokedCerts env with
    | none => .error .assertion
    | some certs => do
        assertThat (certs.count ≠ 0)
        thumbprintIn info.thumbprint certs.list certs.count 0

/-- The checks behind that of the SBAT, which has left the image as `buf`. -/
def revokedBehindSbat (fuel : ℕ) (env : BootloaderEnv) (info : CertInfo)
    (table : SbatTable) (buf : List UInt8) : OverImage ℤ := do
  if ← onImage (isRevokedBySvn fuel env.wchar buf table) then return 4
  else if ← elsewhere (isRevokedByCert env info) then return 5
  else return 0

/-- `IsRevokedByDbx` behind `GetPeArch` -/
def revokedByDbx (env : DbxSources) (hash : List UInt8) (machine : ℕ) : C Bool := do
  let i := (machineToArch machine).index
  if i = ArchType.unknown.index then return false
  else
    let archname ← entry efiArchname i
    let useLocal ← useLocalDbx env.readSetting64 i
    let cached := if useLocal then
      env.readFile ((dbxPath env.appDataDir archname).take (maxPath - 1)) else []
    match if cached = [] then (env.getResource i).map fun dbx => ⟨dbx, []⟩
      else some ⟨cached, [0]⟩ with
    | none => return false
    | some dbx => revokedIn hash dbx

/-- The image is read for its machine only. -/
theorem isRevokedByDbx_machine (env : DbxSources) (hash buf : List UInt8) :
    isRevokedByDbx env hash buf = getPeArch buf >>= revokedByDbx env hash := by
  unfold isRevokedByDbx dbxBuffer
  cases getPeArch buf with
  | error => rfl
  | ok machine =>
      simp only [C.ok_bind, revokedByDbx]
      split
      case isTrue => rfl
      case isFalse =>
          cases entry efiArchname (machineToArch machine).index with
          | error => rfl
          | ok archname =>
              cases useLocalDbx env.readSetting64 (machineToArch machine).index with
              | error => rfl
              | ok useLocal =>
                  simp only [C.ok_bind]
                  generalize (if useLocal = true then env.readFile
                    ((dbxPath env.appDataDir archname).take (maxPath - 1)) else [])
                    = cached
                  split
                  all_goals rfl

/-- The checks of a signed bootloader whose digest is `hash`. -/
def revokedSigned (fuel : ℕ) (env : BootloaderEnv) (info : CertInfo)
    (hash buf : List UInt8) : OverImage (List UInt8 × ℤ) := do
  let machine ← onImage (getPeArch buf)
  if ← elsewhere (revokedByDbx env.dbx hash machine) then return (buf, 1)
  else if hash ∈ env.pe256ssp then return (buf, 2)
  else
    let table ← elsewhere
      (currentTable env.sbatStrdup env.sbatCalloc env.sbatEntries)
    let (buf, bySbat) ← onImage
      (isRevokedBySbat env.sbatStrdup env.sbatCalloc (some table) buf)
    if bySbat then return (buf, 3)
    else
      let revoked ← revokedBehindSbat fuel env info table buf
      return (buf, revoked)

/-- `IsBootloaderRevoked`: the image afterwards and the verdict. -/
def isBootloaderRevoked (fuel : ℕ) (env : BootloaderEnv) (buf : List UInt8) :
    OverImage (List UInt8 × ℤ) := do
  if buf.length < 0x100 then return (buf, -2)
  else
    match ← onImage (ntHeaders buf) with
    | none => return (buf, -2)
    | some _ =>
        let cert ← onImage (getPeSignatureData buf)
        match ← onImage (getIssuerCertificateInfo env.crypt buf cert) with
        | none => return (buf, 0)
        | some info =>
            match ← pe256Buffer env.lib env.cpu buf with
            | none => return (buf, -1)
            | some pe256 => revokedSigned fuel env info pe256 buf

/-! ## What the walk over the SBAT cuts -/

/-- The first row from `i` on that is not blank has a comma. -/
def FirstRowCut (buf : List UInt8) (i : ℕ) : Prop :=
  (((buf.drop i).dropWhile (· = lf)).dropWhile (!endsColumn ·)).head? = some comma

instance (buf : List UInt8) (i : ℕ) : Decidable (FirstRowCut buf i) :=
  inferInstanceAs (Decidable (_ = _))

/-- What becomes of the image in a walk from `i` on: nothing, or the comma of
the first row is cut off, and further separators. -/
def Cuts (i : ℕ) (mem mem' : List UInt8) : Prop :=
  (¬FirstRowCut mem i ∧ mem' = mem) ∨
    FirstRowCut mem i ∧ ∃ p, i ≤ p ∧ mem[p]? = some comma ∧
      Tokenized endsColumn i (mem.set p nul) mem'

theorem Cuts.tokenized {i start : ℕ} {mem mem' : List UInt8} (h : Cuts i mem mem')
    (hstart : start ≤ i) : Tokenized endsColumn start mem mem' := by
  rcases h with ⟨-, rfl⟩ | ⟨-, p, hp, hcomma, htail⟩
  · exact Tokenized.refl _ _ _
  · have hset : Tokenized endsColumn start mem (mem.set p nul) :=
      Tokenized.store (hstart.trans hp) hcomma (by decide)
    exact hset.trans ⟨htail.length, fun j => (htail.bytes j).imp_right fun h =>
      ⟨hstart.trans h.1, h.2⟩⟩

/-- Nothing is altered exactly if the first row has no comma. -/
theorem Cuts.eq_iff {i : ℕ} {mem mem' : List UInt8} (h : Cuts i mem mem') :
    mem' = mem ↔ ¬FirstRowCut mem i := by
  rcases h with ⟨hcut, hsame⟩ | ⟨hcut, p, -, hcomma, htail⟩
  · exact iff_of_true hsame hcut
  · refine iff_of_false (fun hsame => ?_) (not_not_intro hcut)
    have hlt : p < mem.length := (List.getElem?_eq_some_iff.mp hcomma).1
    have hnul := htail.nul_stays (List.getElem?_set_self hlt)
    rw [hsame, hcomma] at hnul
    exact absurd hnul (by decide)

theorem head?_drop {mem : List UInt8} {i : ℕ} {c : UInt8} (h : mem[i]? = some c) :
    (mem.drop i).head? = some c := by
  rw [List.head?_drop, h]

/-- The end of the section in front of a row. -/
theorem not_firstRowCut {mem : List UInt8} {i j : ℕ}
    (hblank : (mem.drop i).dropWhile (· = lf) = mem.drop j)
    (hnul : mem[j]? = some nul) : ¬FirstRowCut mem i := by
  obtain ⟨hj, hget⟩ := List.getElem?_eq_some_iff.mp hnul
  rw [FirstRowCut, hblank, List.drop_eq_getElem_cons hj, hget,
    List.dropWhile_cons_of_neg (by decide)]
  exact fun h => absurd (Option.some.inj h) (by decide)

theorem sbatScan_cuts (table : SbatTable) : ∀ (fuel : ℕ) (mem : List UInt8) (i : ℕ),
    Ensures (sbatScan table fuel mem i) fun r => Cuts i mem r.1
  | 0, _, _ => Ensures.error
  | fuel + 1, mem, i => by
      have hrest {mem' : List UInt8} {k : ℕ} (hk : i ≤ k) :
          Ensures (sbatScan table fuel mem' k) fun r =>
            Tokenized endsColumn i mem' r.1 :=
        (sbatScan_cuts table fuel mem' k).mono fun r hr => hr.tokenized hk
      rw [sbatScan]
      refine (load_ensures mem i).bind fun c hc => ?_
      refine Ensures.ite (fun hnul => Ensures.ok (.inl ⟨?_, rfl⟩)) fun hne => ?_
      · obtain ⟨hi, hget⟩ := List.getElem?_eq_some_iff.mp (hnul ▸ hc)
        refine not_firstRowCut (j := i) ?_ (hnul ▸ hc)
        rw [List.drop_eq_getElem_cons hi, hget, List.dropWhile_cons_of_neg (by decide)]
      refine (scanFrom_ensures _ mem i).bind fun j hj => ?_
      obtain ⟨hij, -, hblank⟩ := hj
      simp only [ne_eq, decide_not, Bool.not_not] at hblank
      refine (load_ensures mem j).bind fun c hc => ?_
      refine Ensures.ite (fun hnul => Ensures.ok (.inl ⟨?_, rfl⟩)) fun hne => ?_
      · exact not_firstRowCut hblank (hnul ▸ hc)
      refine (scanFrom_ensures _ mem j).bind fun p hp => ?_
      obtain ⟨hjp, ⟨e, he, hends⟩, hproduct⟩ := hp
      have hcut : FirstRowCut mem i ↔ e = comma := by
        rw [FirstRowCut, hblank, hproduct, head?_drop he, Option.some.injEq]
      refine (load_ensures mem p).bind fun c hc => ?_
      obtain rfl : e = c := Option.some.inj (he.symm.trans hc)
      refine Ensures.ite (fun hend => Ensures.ok (.inl ⟨?_, rfl⟩)) fun hcomma => ?_
      · rw [hcut]
        rintro rfl
        rcases hend with h | h
        · exact absurd h (by decide)
        · exact absurd h (by decide)
      have hec : e = comma := by
        rcases not_or.mp hcomma with ⟨hnul, hlf⟩
        simpa [endsColumn, hnul, hlf] using hends
      refine ((store_ensures mem p nul).bind fun mem₁ h₁ => ?_).mono fun r hr =>
        .inr ⟨hcut.mpr hec, p, by omega, hec ▸ he, hr⟩
      obtain ⟨-, rfl⟩ := h₁
      refine (scanFrom_ensures _ _ _).bind fun q hq => ?_
      obtain ⟨hpq, ⟨e', he', hends'⟩, -⟩ := hq
      refine (store_ensures _ q nul).bind fun mem₂ h₂ => ?_
      obtain ⟨-, rfl⟩ := h₂
      have htwo : Tokenized endsColumn i (mem.set p nul) ((mem.set p nul).set q nul) :=
        Tokenized.store (by omega) he' hends'
      refine Ensures.bind (P := fun _ => True) (fun _ _ => trivial) fun str _ => ?_
      refine (scanFrom_ensures _ _ _).bind fun k hk => ?_
      have hik : i ≤ k := by omega
      refine Ensures.ite (fun _ => (hrest hik).mono fun r => htwo.trans) fun _ => ?_
      refine Ensures.bind (P := fun _ => True) (fun _ _ => trivial) fun product _ => ?_
      refine Ensures.ite (fun _ => Ensures.ok htwo) fun _ => ?_
      exact (hrest hik).mono fun r => htwo.trans

/-! ## The image behind a call -/

/-- The section of the SBAT, as far as `IsRevokedBySbat` looks at it. -/
def SbatAt (buf : List UInt8) (sbat : ℕ) : Prop :=
  sbat < buf.length ∧ ∃ len, getPeSection buf sbatSectionName = .ok (some (sbat, len))

theorem isRevokedBySbat_cuts (strdup calloc : Bool) (table : SbatTable)
    (buf : List UInt8) :
    Ensures (isRevokedBySbat strdup calloc (some table) buf) fun r =>
      (r.1 = buf ∧ ¬∃ sbat, SbatAt buf sbat) ∨
        ∃ sbat, SbatAt buf sbat ∧ Cuts sbat buf r.1 := by
  rw [isRevokedBySbat, currentTable, C.pure_eq, C.ok_bind]
  refine Ensures.bind_eq fun found hfound => ?_
  have hat {sbat : ℕ} (h : SbatAt buf sbat) : ∃ len, found = some (sbat, len) := by
    obtain ⟨-, len, hlen⟩ := h
    exact ⟨len, Except.ok.inj (hfound.symm.trans hlen)⟩
  cases found with
  | none =>
      refine Ensures.ok (.inl ⟨rfl, ?_⟩)
      rintro ⟨sbat, h⟩
      obtain ⟨len, hsome⟩ := hat h
      cases hsome
  | some found =>
      obtain ⟨sbat, len⟩ := found
      refine Ensures.ite (fun hge => Ensures.ok (.inl ⟨rfl, ?_⟩)) fun hlt => ?_
      · rintro ⟨sbat', h⟩
        obtain ⟨len', hsome⟩ := hat h
        cases hsome
        exact absurd h.1 (Nat.not_lt.mpr hge)
      · refine (sbatScan_cuts table _ buf sbat).mono fun r hr => .inr ⟨sbat, ?_, hr⟩
        exact ⟨Nat.not_le.mp hlt, len, hfound⟩

/-- There is a section of the SBAT, and its first row has a comma. -/
def SbatCut (buf : List UInt8) : Prop := ∃ sbat, SbatAt buf sbat ∧ FirstRowCut buf sbat

theorem SbatAt.unique {buf : List UInt8} {sbat sbat' : ℕ} (h : SbatAt buf sbat)
    (h' : SbatAt buf sbat') : sbat = sbat' := by
  obtain ⟨-, len, hlen⟩ := h
  obtain ⟨-, len', hlen'⟩ := h'
  rw [hlen] at hlen'
  cases hlen'
  rfl

/-- The image is as it was, or its SBAT has been cut. -/
def SbatTokenized (buf buf' : List UInt8) : Prop :=
  buf' = buf ∨ ∃ sbat, SbatAt buf sbat ∧ Tokenized endsColumn sbat buf buf'

theorem isRevokedBySbat_tokenizes (strdup calloc : Bool) (table : SbatTable)
    (buf : List UInt8) :
    Ensures (isRevokedBySbat strdup calloc (some table) buf) fun r =>
      SbatTokenized buf r.1 ∧ (r.1 = buf ↔ ¬SbatCut buf) := by
  refine (isRevokedBySbat_cuts strdup calloc table buf).mono fun r hr => ?_
  rcases hr with ⟨hsame, hnone⟩ | ⟨sbat, hat, hcuts⟩
  · exact ⟨.inl hsame, iff_of_true hsame fun ⟨sbat, hat, _⟩ => hnone ⟨sbat, hat⟩⟩
  · refine ⟨.inr ⟨sbat, hat, hcuts.tokenized le_rfl⟩, hcuts.eq_iff.trans ?_⟩
    refine not_congr ⟨fun hcut => ⟨sbat, hat, hcut⟩, ?_⟩
    rintro ⟨sbat', hat', hcut⟩
    exact hat.unique hat' ▸ hcut

/-- There is a signature, and the crypto API finds its certificate. -/
def Signed (env : BootloaderEnv) (buf : List UInt8) : Prop :=
  ∃ cert info, getPeSignatureData buf = .ok cert ∧
    getIssuerCertificateInfo env.crypt buf cert = .ok (some info)

section

variable {α : Type}

theorem onImage_eq_ok {x : C α} {a : α} : onImage x = .ok a ↔ x = .ok a := by
  cases x <;> simp [onImage, Except.mapError]

@[simp] theorem OverImage.ok_bind {β : Type} (a : α) (f : α → OverImage β) :
    (Except.ok a : OverImage α) >>= f = f a := rfl

theorem OverImage.bind_eq_ok {β : Type} {x : OverImage α} {f : α → OverImage β} {b : β} :
    x >>= f = .ok b ↔ ∃ a, x = .ok a ∧ f a = .ok b := by
  cases x with
  | error e => exact ⟨fun h => (nomatch h), fun ⟨_, h, _⟩ => (nomatch h)⟩
  | ok a =>
      refine ⟨fun h => ⟨a, rfl, h⟩, fun h => ?_⟩
      obtain ⟨_, ha, hf⟩ := h
      cases ha
      exact hf

end

theorem revokedBehindSbat_verdict {fuel : ℕ} {env : BootloaderEnv} {info : CertInfo}
    {table : SbatTable} {buf : List UInt8} {r : ℤ}
    (h : revokedBehindSbat fuel env info table buf = .ok r) :
    r = 0 ∨ r = 3 ∨ r = 4 ∨ r = 5 := by
  obtain ⟨bySvn, -, h⟩ := OverImage.bind_eq_ok.mp h
  cases bySvn with
  | true =>
      cases h
      exact .inr (.inr (.inl rfl))
  | false =>
      obtain ⟨byCert, -, h⟩ := OverImage.bind_eq_ok.mp h
      cases byCert with
      | true =>
          cases h
          exact .inr (.inr (.inr rfl))
      | false =>
          cases h
          exact .inl rfl

/-- Behind the checks that fire before it, that of the SBAT is made. -/
theorem revokedSigned_tokenizes {fuel : ℕ} {env : BootloaderEnv} {info : CertInfo}
    {hash buf buf' : List UInt8} {r : ℤ}
    (h : revokedSigned fuel env info hash buf = .ok (buf', r)) :
    (buf' = buf ∧ (r = 1 ∨ r = 2)) ∨
      SbatTokenized buf buf' ∧ (buf' = buf ↔ ¬SbatCut buf) ∧
        (r = 0 ∨ r = 3 ∨ r = 4 ∨ r = 5) := by
  rw [revokedSigned] at h
  obtain ⟨machine, -, h⟩ := OverImage.bind_eq_ok.mp h
  obtain ⟨byDbx, -, h⟩ := OverImage.bind_eq_ok.mp h
  split at h
  case isTrue =>
      cases h
      exact .inl ⟨rfl, .inl rfl⟩
  case isFalse =>
      split at h
      case isTrue =>
          cases h
          exact .inl ⟨rfl, .inr rfl⟩
      case isFalse =>
          obtain ⟨table, -, h⟩ := OverImage.bind_eq_ok.mp h
          obtain ⟨⟨left, bySbat⟩, hsbat, h⟩ := OverImage.bind_eq_ok.mp h
          obtain ⟨htok, hiff⟩ :=
            isRevokedBySbat_tokenizes _ _ table buf _ (onImage_eq_ok.mp hsbat)
          right
          cases bySbat with
          | true =>
              cases h
              exact ⟨htok, hiff, .inr (.inl rfl)⟩
          | false =>
              obtain ⟨revoked, hrevoked, h⟩ := OverImage.bind_eq_ok.mp h
              cases h
              exact ⟨htok, hiff, revokedBehindSbat_verdict hrevoked⟩

/-- **What a call leaves of the image**: separators of the `.sbat` section that
have become NULs, and the rest as it was. It is altered exactly where the check
of the SBAT is made and the first row of that section has a comma. -/
theorem isBootloaderRevoked_tokenizes {fuel : ℕ} {env : BootloaderEnv}
    {buf buf' : List UInt8} {r : ℤ}
    (h : isBootloaderRevoked fuel env buf = .ok (buf', r)) :
    SbatTokenized buf buf' ∧
      (buf' = buf ↔ ¬(SbatCut buf ∧ Signed env buf ∧
        (r = 0 ∨ r = 3 ∨ r = 4 ∨ r = 5))) ∧
      (buf' = buf → isBootloaderRevoked fuel env buf' = .ok (buf', r)) := by
  have hagain : buf' = buf → isBootloaderRevoked fuel env buf' = .ok (buf', r) :=
    fun hsame => hsame ▸ h
  have hsame {P : Prop} (hbuf : buf' = buf) (hP : ¬P) :
      SbatTokenized buf buf' ∧ (buf' = buf ↔ ¬P) ∧
        (buf' = buf → isBootloaderRevoked fuel env buf' = .ok (buf', r)) :=
    ⟨.inl hbuf, iff_of_true hbuf hP, hagain⟩
  have hrun := h
  rw [isBootloaderRevoked] at hrun
  split at hrun
  case isTrue =>
      cases hrun
      exact hsame rfl (by rintro ⟨-, -, h⟩; omega)
  case isFalse =>
      obtain ⟨headers, -, hrun⟩ := OverImage.bind_eq_ok.mp hrun
      cases headers with
      | none =>
          cases hrun
          exact hsame rfl (by rintro ⟨-, -, h⟩; omega)
      | some pe =>
          obtain ⟨cert, hcert, hrun⟩ := OverImage.bind_eq_ok.mp hrun
          obtain ⟨info, hinfo, hrun⟩ := OverImage.bind_eq_ok.mp hrun
          rw [onImage_eq_ok] at hcert hinfo
          cases info with
          | none =>
              cases hrun
              refine hsame rfl ?_
              rintro ⟨-, ⟨cert', info', hcert', hinfo'⟩, -⟩
              rw [hcert] at hcert'
              cases hcert'
              rw [hinfo] at hinfo'
              cases hinfo'
          | some info =>
              obtain ⟨digest, -, hrun⟩ := OverImage.bind_eq_ok.mp hrun
              cases digest with
              | none =>
                  cases hrun
                  exact hsame rfl (by rintro ⟨-, -, h⟩; omega)
              | some digest =>
                  rcases revokedSigned_tokenizes hrun with ⟨hbuf, hr⟩ | ⟨htok, hiff, hr⟩
                  · exact hsame hbuf (by rintro ⟨-, -, h⟩; omega)
                  · refine ⟨htok, hiff.trans (not_congr ?_), hagain⟩
                    exact ⟨fun hcut => ⟨hcut, ⟨cert, info, hcert, hinfo⟩, hr⟩,
                      fun hcut => hcut.1⟩

/-! ## The digest -/

/-- The digest is that of the bytes of the regions. -/
theorem pe256Buffer_digest {lib : ParseLibrary} {cpu : HashCpu} (hcpu : cpu.Sound)
    {buf : List UInt8} {regs : List ImageRegion} {pieces : List (List UInt8)}
    (hlen : 1024 ≤ buf.length ∧ buf.length ≤ 64 * 1048576)
    (hregs : efiImageParse lib buf = .ok (some regs))
    (hpieces : regionsBytes buf regs = .ok pieces)
    (hshort : pieces.flatten.length < 2 ^ 61) :
    pe256Buffer lib cpu buf = .ok (some (HashType.sha256.digest pieces.flatten)) := by
  have hmessage : message (pieces.map fun bytes => ⟨bytes, bytes.length, le_rfl⟩)
      = pieces.flatten := by
    rw [message, List.flatMap_map, List.flatten_eq_flatMap]
    exact congrArg (pieces.flatMap ·) (funext fun bytes => List.take_length)
  have hstream := @hashStream_of_fill cpu hcpu .sha256
    (pieces.map fun bytes => ⟨bytes, bytes.length, le_rfl⟩) (hmessage ▸ hshort) (by rintro ⟨⟩)
  have hrange : ¬(buf.length < 1024 ∨ 64 * 1048576 < buf.length) := by omega
  rw [pe256Buffer, if_neg hrange, onImage_eq_ok.mpr hregs, OverImage.ok_bind]
  dsimp only
  rw [onImage_eq_ok.mpr hpieces, OverImage.ok_bind, hstream, hmessage]
  rfl

/-! ## A bootloader -/

/-- A signed PE32 image of 1024 bytes, of which eight are read as the signature,
with a `.sbat` section at 352. -/
def signedLoader (content : List UInt8) : List UInt8 :=
  -- DOS header, with the NT headers at 0x40
  [0x4d, 0x5a] ++ List.replicate 58 0 ++ leBytes 4 0x40 ++
  -- signature and file header (I386, one section)
  [0x50, 0x45, 0, 0, 0x4c, 0x01, 1, 0] ++ List.replicate 12 0 ++ leBytes 2 224 ++
  [0, 0] ++
  -- optional header
  [0x0b, 0x01] ++ List.replicate 34 0 ++ leBytes 4 16 ++ List.replicate 20 0 ++
  leBytes 4 352 ++ List.replicate 28 0 ++ leBytes 4 16 ++ List.replicate 32 0 ++
  leBytes 4 1000 ++ leBytes 4 24 ++ List.replicate 88 0 ++
  -- the section header
  sectionName sbatSectionName ++ List.replicate 8 0 ++ leBytes 4 16 ++
  leBytes 4 352 ++ List.replicate 16 0 ++
  ((content ++ List.replicate 648 0).take 648) ++
  -- the certificate
  leBytes 4 16 ++ [0, 2, 2, 0] ++ List.replicate 16 0

/-- The tables of a program that knows of one minimum version. -/
def oneMinimum : BootloaderEnv where
  crypt := ⟨fun blob => min 8 blob.length, fun _ => some ⟨text "CA", []⟩⟩
  lib := ⟨true, true, id⟩
  cpu := ⟨none, none⟩
  dbx :=
    { readSetting64 := fun _ => 0
      appDataDir := []
      readFile := fun _ => []
      getResource := fun _ => none
      readFile_lt := noFile_lt
      getResource_lt := noResource_lt }
  pe256ssp := []
  sbatEntries := some shimTable
  sbatStrdup := true
  sbatCalloc := true
  wchar := true
  expertMode := false
  sbRevokedCerts := none
  certStrdup := true
  certCalloc := true

theorem oneMinimum_dbx (hash : List UInt8) :
    revokedByDbx oneMinimum.dbx hash 0x014c = .ok false := rfl

theorem oneMinimum_cpu_sound : oneMinimum.cpu.Sound := ⟨nofun, nofun⟩

/-- What a call does that comes to the check of the SBAT. -/
theorem isBootloaderRevoked_oneMinimum (fuel : ℕ) {buf buf' : List UInt8}
    {regs : List ImageRegion} {revoked : Bool} {pe cert : ℕ} {info : CertInfo}
    (hlen : 1024 ≤ buf.length ∧ buf.length ≤ 64 * 1048576)
    (hheaders : ntHeaders buf = .ok (some pe))
    (hcert : getPeSignatureData buf = .ok (some cert))
    (hinfo : getIssuerCertificateInfo oneMinimum.crypt buf (some cert) = .ok (some info))
    (hregs : efiImageParse oneMinimum.lib buf = .ok (some regs))
    (hpieces : regionsBytes buf regs = .ok (regs.map (Extent.slice buf)))
    (hshort : ((regs.map (Extent.slice buf)).flatten).length < 2 ^ 61)
    {machine : ℕ} (hmachine : getPeArch buf = .ok machine)
    (hdbx : revokedByDbx oneMinimum.dbx (HashType.sha256.digest
      (regs.map (Extent.slice buf)).flatten) machine = .ok false)
    (hsbat : isRevokedBySbat oneMinimum.sbatStrdup oneMinimum.sbatCalloc
      (some shimTable) buf = .ok (buf', revoked)) :
    isBootloaderRevoked fuel oneMinimum buf
      = .ok (buf', if revoked then 3 else 0) := by
  obtain ⟨hmin, hmax⟩ := hlen
  have hdigest := pe256Buffer_digest oneMinimum_cpu_sound ⟨hmin, hmax⟩ hregs hpieces
    hshort
  have hsvn : isRevokedBySvn fuel true buf' shimTable = .ok false := by
    rw [shimTable, isRevokedBySvn, if_pos (by decide)]
    rfl
  have hsigned : revokedSigned fuel oneMinimum info
      (HashType.sha256.digest (regs.map (Extent.slice buf)).flatten) buf
      = .ok (buf', if revoked then 3 else 0) := by
    have htable : elsewhere (currentTable oneMinimum.sbatStrdup oneMinimum.sbatCalloc
      oneMinimum.sbatEntries) = .ok shimTable := rfl
    rw [revokedSigned, onImage_eq_ok.mpr hmachine, OverImage.ok_bind, hdbx]
    show (Except.ok false : OverImage Bool) >>= _ = _
    rw [OverImage.ok_bind, if_neg (by decide), if_neg (by exact List.not_mem_nil), htable,
      OverImage.ok_bind, onImage_eq_ok.mpr hsbat, OverImage.ok_bind]
    cases revoked with
    | true => rfl
    | false =>
        have hbehind : revokedBehindSbat fuel oneMinimum info shimTable buf' = .ok 0 := by
          rw [revokedBehindSbat]
          show (onImage (isRevokedBySvn fuel true buf' shimTable) >>= _) = _
          rw [hsvn]
          rfl
        dsimp only
        rw [if_neg (by decide), hbehind]
        rfl
  rw [isBootloaderRevoked, if_neg (by omega), onImage_eq_ok.mpr hheaders]
  simp only [OverImage.ok_bind, onImage_eq_ok.mpr hcert, onImage_eq_ok.mpr hinfo, hdigest]
  exact hsigned

/-- The row of an old `shim`, and what the check leaves of it. -/
def oldShim : List UInt8 := signedLoader (text "shim,1\n")
def cutShim : List UInt8 := signedLoader (text "shim" ++ nul :: text "1" ++ [nul])

/-- The regions of a `signedLoader` -/
def loaderRegions : List ImageRegion :=
  [(0, 152), (156, 60), (224, 128), (352, 16), (368, 632)]

theorem oldShim_revoked (fuel : ℕ) :
    isBootloaderRevoked fuel oneMinimum oldShim = .ok (cutShim, 3) := by
  have hheaders : ntHeaders oldShim = .ok (some 64) := by decide +kernel
  have hcert : getPeSignatureData oldShim = .ok (some 1000) := by decide +kernel
  have hmachine : getPeArch oldShim = .ok 0x014c := by decide +kernel
  have hinfo : getIssuerCertificateInfo oneMinimum.crypt oldShim (some 1000)
    = .ok (some ⟨text "CA", []⟩) := by decide +kernel
  have hregs : efiImageParse oneMinimum.lib oldShim = .ok (some loaderRegions) := by
    decide +kernel
  have hsbat : isRevokedBySbat oneMinimum.sbatStrdup oneMinimum.sbatCalloc
    (some shimTable) oldShim = .ok (cutShim, true) := by decide +kernel
  exact isBootloaderRevoked_oneMinimum fuel (by decide +kernel) hheaders hcert hinfo
    hregs (by decide +kernel) (by decide +kernel) hmachine
    (oneMinimum_dbx _) hsbat

theorem cutShim_passes (fuel : ℕ) :
    isBootloaderRevoked fuel oneMinimum cutShim = .ok (cutShim, 0) := by
  have hheaders : ntHeaders cutShim = .ok (some 64) := by decide +kernel
  have hcert : getPeSignatureData cutShim = .ok (some 1000) := by decide +kernel
  have hmachine : getPeArch cutShim = .ok 0x014c := by decide +kernel
  have hinfo : getIssuerCertificateInfo oneMinimum.crypt cutShim (some 1000)
    = .ok (some ⟨text "CA", []⟩) := by decide +kernel
  have hregs : efiImageParse oneMinimum.lib cutShim = .ok (some loaderRegions) := by
    decide +kernel
  have hsbat : isRevokedBySbat oneMinimum.sbatStrdup oneMinimum.sbatCalloc
    (some shimTable) cutShim = .ok (cutShim, false) := by decide +kernel
  exact isBootloaderRevoked_oneMinimum fuel (by decide +kernel) hheaders hcert hinfo
    hregs (by decide +kernel) (by decide +kernel) hmachine
    (oneMinimum_dbx _) hsbat

/-- The same image is called revoked, and then is not. -/
theorem isBootloaderRevoked_alters :
    (∀ fuel, isBootloaderRevoked fuel oneMinimum oldShim = .ok (cutShim, 3)) ∧
      cutShim ≠ oldShim ∧
      ∀ fuel, isBootloaderRevoked fuel oneMinimum cutShim = .ok (cutShim, 0) :=
  ⟨oldShim_revoked, by decide +kernel, cutShim_passes⟩

theorem isBootloaderRevoked_tokenizes_cutShim :
    SbatTokenized oldShim cutShim ∧ SbatTokenized cutShim cutShim ∧ ¬SbatCut cutShim := by
  have hcut := isBootloaderRevoked_tokenizes (oldShim_revoked 1)
  have hpasses := isBootloaderRevoked_tokenizes (cutShim_passes 1)
  refine ⟨hcut.1, hpasses.1, fun hsbat => ?_⟩
  have hsigned : Signed oneMinimum cutShim :=
    ⟨some 1000, ⟨text "CA", []⟩, by decide +kernel, by decide +kernel⟩
  exact hpasses.2.1.mp rfl ⟨hsbat, hsigned, .inl rfl⟩

end Nawam
