import Nawam.Base.Safe
import Nawam.Hash.Bootloader

/-!
# What `IsBootloaderRevoked` reads

The revocation checks follow offsets that come from the image: the one of the
NT headers, the sections, the certificate, the rows of the SBAT and the tree of
the resources. Only `efi_image_parse` compares the first of them with the length
of the image, and only `IsRevokedBySbat` one of the others.

For each function there is the condition under which it stays inside of the
image, on what the image has at these offsets (`NtFits` and the ones below), and
`BootloaderFits` puts them together in the order of the checks.
-/

namespace Nawam

open Ascii Extent

/-! ## The headers -/

def NtFits (buf : List UInt8) : Prop :=
  2 ≤ buf.length ∧ (fieldAt buf 0 2 = 0x5a4d →
    0x40 ≤ buf.length ∧ fieldAt buf 0x3c 4 < 2 ^ 31 ∧
      fieldAt buf 0x3c 4 + 4 ≤ buf.length)

/-- Both signatures are there. -/
def IsPe (buf : List UInt8) : Prop :=
  fieldAt buf 0 2 = 0x5a4d ∧ fieldAt buf (fieldAt buf 0x3c 4) 4 = 0x00004550

instance (buf : List UInt8) : Decidable (IsPe buf) := inferInstanceAs (Decidable (_ ∧ _))

/-- The NT headers of a PE image, and its machine -/
abbrev ntOf (buf : List UInt8) : ℕ := fieldAt buf 0x3c 4
abbrev machineOf (buf : List UInt8) : ℕ := fieldAt buf (ntOf buf + 4) 2

theorem ntHeaders_safe (buf : List UInt8) : Safe (ntHeaders buf) ↔ NtFits buf := by
  rw [ntHeaders, Safe.loadLE_bind, NtFits]
  refine and_congr (by omega) ?_
  rw [Safe.ite]
  simp only [Safe.pure, implies_true, true_and, ne_eq, Decidable.not_not]
  refine imp_congr_right fun _ => ?_
  rw [Safe.loadLE_bind, Safe.ite, Safe.loadLE_bind]
  simp only [Safe.outOfBounds, Safe.ite, Safe.pure, implies_true, and_true, imp_false,
    Nat.not_le]
  omega

theorem ntHeaders_eq {buf : List UInt8} (h : NtFits buf) :
    ntHeaders buf = .ok (if IsPe buf then some (ntOf buf) else none) := by
  obtain ⟨hmagic, hrest⟩ := h
  rw [ntHeaders, loadLE_fieldAt (by omega), C.ok_bind]
  split
  case isTrue hne => rw [if_neg fun hpe => hne hpe.1]; rfl
  case isFalse heq =>
      rw [ne_eq, Decidable.not_not] at heq
      obtain ⟨hlen, hlt, hend⟩ := hrest heq
      rw [loadLE_fieldAt (by omega), C.ok_bind, if_neg (by omega),
        loadLE_fieldAt hend, C.ok_bind]
      split
      case isTrue hne => rw [if_neg fun hpe => hne hpe.2]; rfl
      case isFalse hpe =>
          rw [if_pos ⟨heq, Decidable.not_not.mp hpe⟩]
          rfl

theorem ntHeaders_bind {β : Type} (buf : List UInt8) {f : Option ℕ → C β}
    (hnone : Safe (f none)) :
    Safe (ntHeaders buf >>= f) ↔
      NtFits buf ∧ (IsPe buf → Safe (f (some (ntOf buf)))) := by
  rw [Safe.bind, ntHeaders_safe]
  refine and_congr_right fun hfits => ?_
  rw [ntHeaders_eq hfits]
  split
  case isTrue hpe => simp [hpe]
  case isFalse hpe => simp [hpe, hnone]

/-! ## The certificate -/

def SignatureFits (buf : List UInt8) : Prop :=
  let entry := ntOf buf + dataDirectory (machineOf buf) 4
  let cert := fieldAt buf entry 4
  ntOf buf + 6 ≤ buf.length ∧ entry + 8 ≤ buf.length ∧
    (cert ≠ 0 → fieldAt buf (entry + 4) 4 ≠ 0 →
      cert + 4 ≤ buf.length ∧ (fieldAt buf cert 4 ≠ 0 → cert + 8 ≤ buf.length))

def CertificateFits (crypt : CryptApi) (buf : List UInt8) (cert : ℕ) : Prop :=
  cert + 4 ≤ buf.length ∧ (fieldAt buf cert 4 ≠ 0 →
    cert + 8 + crypt.reads ((buf.drop (cert + 8)).take (fieldAt buf cert 4))
      ≤ buf.length)

theorem getPeSignatureData_safe (buf : List UInt8) :
    Safe (getPeSignatureData buf) ↔ NtFits buf ∧ (IsPe buf → SignatureFits buf) := by
  rw [getPeSignatureData, ntHeaders_bind buf (by simp)]
  refine and_congr_right fun _ => imp_congr_right fun _ => ?_
  simp only [SignatureFits, machineOf, Safe.loadLE_bind, Safe.ite, Safe.pure,
    implies_true, true_and, and_true, not_or]
  generalize ntOf buf + dataDirectory (fieldAt buf (ntOf buf + 4) 2) 4 = entry
  grind

theorem getIssuerCertificateInfo_safe (crypt : CryptApi) (buf : List UInt8) (cert : ℕ) :
    Safe (getIssuerCertificateInfo crypt buf (some cert)) ↔
      CertificateFits crypt buf cert := by
  rw [getIssuerCertificateInfo, Safe.loadLE_bind, CertificateFits]
  refine and_congr_right fun _ => ?_
  rw [Safe.ite]
  simp only [Safe.pure, implies_true, true_and, Safe.loadN_bind, and_true]

/-! ## The regions of the digest -/

section

variable (lib : ParseLibrary) (efi : List UInt8)

def SectionFits (header : ℕ) : Prop :=
  header + 20 ≤ efi.length ∧ (fieldAt efi (header + 16) 4 ≠ 0 → header + 24 ≤ efi.length)

def HeadersFit (nt count directory : ℕ) : Prop :=
  nt + 24 + count + 4 ≤ efi.length ∧ nt + 24 + 64 ≤ efi.length ∧
    (4 < fieldAt efi (nt + 24 + count) 4 → nt + 24 + directory + 40 ≤ efi.length) ∧
    (lib.callocSorted = true → ∀ j < fieldAt efi (nt + 6) 2,
      SectionFits efi (nt + 24 + fieldAt efi (nt + 20) 2 + 40 * j))

def ParseFits : Prop :=
  0x80 ≤ efi.length → toLong (ntOf efi) ≤ toLong efi.length - 0x40 →
    ntOf efi < 2 ^ 31 ∧ ntOf efi + 8 ≤ efi.length ∧ (lib.callocRegs = true →
      ntOf efi + 26 ≤ efi.length ∧
      (fieldAt efi (ntOf efi + 24) 2 = 0x20b → HeadersFit lib efi (ntOf efi) 108 112) ∧
      (fieldAt efi (ntOf efi + 24) 2 = 0x10b → HeadersFit lib efi (ntOf efi) 92 96))

end

section

variable {lib : ParseLibrary} {efi : List UInt8}

theorem headerRegions_safe (max opt count directory : ℕ) :
    Safe (headerRegions efi max opt count directory) ↔
      opt + count + 4 ≤ efi.length ∧ opt + 64 ≤ efi.length ∧
        (4 < fieldAt efi (opt + count) 4 → opt + directory + 40 ≤ efi.length) := by
  rw [headerRegions, Safe.loadLE_bind, Safe.loadLE_bind]
  rcases efiImageRegionAdd max [] 0 (opt + 64) false with ⟨regs, _⟩
  dsimp only
  rw [Safe.ite]
  rcases efiImageRegionAdd max regs (opt + 68) (opt + directory + 32) false
    with ⟨regs₁, _⟩
  dsimp only
  rcases efiImageRegionAdd max regs₁ (opt + directory + 32 + 8)
    (fieldAt efi (opt + 60) 4) false with ⟨regs₂, _⟩
  dsimp only
  rw [Safe.loadLE_bind]
  simp only [Safe.pure, implies_true, true_and, and_true, Nat.not_le, Nat.add_assoc,
    Nat.reduceAdd]

theorem headerRegions_ok {max opt count directory : ℕ}
    (h : Safe (headerRegions efi max opt count directory)) :
    ∃ a, headerRegions efi max opt count directory = .ok a := by
  obtain ⟨hcount, hheaders, hentry⟩ := (headerRegions_safe ..).mp h
  rw [headerRegions, loadLE_fieldAt (by omega), C.ok_bind, loadLE_fieldAt (by omega),
    C.ok_bind]
  rcases efiImageRegionAdd max [] 0 (opt + 64) false with ⟨regs, _⟩
  dsimp only
  split
  case isTrue => exact ⟨_, rfl⟩
  case isFalse hnum =>
      have hend := hentry (by omega)
      rcases efiImageRegionAdd max regs (opt + 68) (opt + directory + 32) false
        with ⟨regs₁, _⟩
      dsimp only
      rcases efiImageRegionAdd max regs₁ (opt + directory + 32 + 8)
        (fieldAt efi (opt + 60) 4) false with ⟨regs₂, _⟩
      dsimp only
      rw [loadLE_fieldAt (by omega)]
      exact ⟨_, rfl⟩

theorem sectionRegions_safe (max align : ℕ) : ∀ (sorted : List (ℕ × ℕ))
    (regs : List ImageRegion) (bytesHashed : ℕ),
    Safe (sectionRegions efi max align sorted regs bytesHashed) ↔
      ∀ h ∈ sorted, SectionFits efi h.2
  | [], _, _ => by simp [sectionRegions]
  | (_, header) :: sorted, regs, bytesHashed => by
      have ih := sectionRegions_safe max align sorted
      rw [sectionRegions, Safe.loadLE_bind, List.forall_mem_cons, SectionFits, and_assoc]
      refine and_congr_right fun _ => ?_
      split
      case isTrue hzero =>
          rw [ih]
          exact (and_iff_right fun hne => absurd hzero hne).symm
      case isFalse hne =>
          rw [Safe.loadLE_bind]
          dsimp only
          rcases efiImageRegionAdd max regs (fieldAt efi (header + 20) 4)
            (fieldAt efi (header + 20) 4 + sectionSize (fieldAt efi (header + 16) 4) align)
            false with ⟨regs', _⟩
          dsimp only
          rw [ih]
          exact and_congr_left fun _ => ⟨fun h _ => h, fun h => h hne⟩

/-- The headers are read from the first one to the last. -/
theorem sectionKeys_safe (table : ℕ) : ∀ (n i : ℕ),
    Safe (sectionKeys efi table n i) ↔ n = 0 ∨ table + 40 * (i + n) ≤ efi.length + 24
  | 0, _ => by simp [sectionKeys]
  | n + 1, i => by
      have ih := sectionKeys_safe table n (i + 1)
      rw [sectionKeys, Safe.loadLE_bind, Safe.bind, ih]
      simp only [Safe.pure, implies_true, and_true]
      omega

/-- All section headers are read, in whatever order the sort leaves them. -/
theorem sections_safe (hqsort : ∀ l, (lib.qsort l).Perm l) (max align table n : ℕ)
    (regs : List ImageRegion) (bytesHashed : ℕ) {β : Type}
    {f : List ImageRegion × ℕ → C β} (hf : ∀ a, Safe (f a)) :
    Safe (sectionKeys efi table n 0 >>= fun keys =>
        sectionRegions efi max align (lib.qsort keys) regs bytesHashed >>= f) ↔
      ∀ j < n, SectionFits efi (table + 40 * j) := by
  rw [Safe.bind, sectionKeys_safe]
  have hkeys (h : n = 0 ∨ table + 40 * (0 + n) ≤ efi.length + 24) :
      sectionKeys efi table n 0 = .ok ((List.range n).map fun j =>
        (fieldAt efi (table + 40 * j + 12) 4, table + 40 * j)) := by
    rcases h with rfl | h
    · rfl
    · rw [sectionKeys_eq n 0 h, List.range_eq_range']
  have hall (keys : List (ℕ × ℕ)) : (Safe (sectionRegions efi max align
      (lib.qsort keys) regs bytesHashed >>= f)) ↔ ∀ h ∈ keys, SectionFits efi h.2 := by
    rw [Safe.bind, sectionRegions_safe, and_iff_left fun a _ => hf a]
    exact forall_congr' fun h => imp_congr_left (hqsort keys).mem_iff
  simp only [hall]
  constructor
  · rintro ⟨hread, hfits⟩ j hj
    exact hfits _ (hkeys hread) (_, table + 40 * j)
      (List.mem_map_of_mem (List.mem_range.mpr hj))
  · intro hfits
    have hread : n = 0 ∨ table + 40 * (0 + n) ≤ efi.length + 24 := by
      rcases Nat.eq_zero_or_pos n with hzero | hpos
      · exact .inl hzero
      · have hlast := (hfits (n - 1) (by omega)).1
        exact .inr (by omega)
    refine ⟨hread, fun keys hrun h hmem => ?_⟩
    rw [hkeys hread] at hrun
    cases hrun
    obtain ⟨j, hj, rfl⟩ := List.mem_map.mp hmem
    exact hfits j (List.mem_range.mp hj)

theorem bodyRegions_safe (hqsort : ∀ l, (lib.qsort l).Perm l) (max nt : ℕ)
    (regs : List ImageRegion) (authsz : ℕ) (hnt : nt + 24 + 64 ≤ efi.length) :
    Safe (bodyRegions lib efi max nt regs authsz) ↔
      (lib.callocSorted = true → ∀ j < fieldAt efi (nt + 6) 2,
        SectionFits efi (nt + 24 + fieldAt efi (nt + 20) 2 + 40 * j)) := by
  rw [bodyRegions, loadLE_fieldAt (by omega), C.ok_bind, loadLE_fieldAt (by omega),
    C.ok_bind, loadLE_fieldAt (by omega), C.ok_bind, loadLE_fieldAt (by omega), C.ok_bind]
  dsimp only
  rw [Safe.ite, and_iff_left fun _ => (Safe.pure _).mpr trivial]
  refine imp_congr_right fun _ => sections_safe hqsort _ _ _ _ _ _ fun a => ?_
  rcases a with ⟨regs, bytesHashed⟩
  dsimp only
  rw [Safe.ite]
  exact ⟨fun _ => (Safe.pure _).mpr trivial, fun _ => (Safe.pure _).mpr trivial⟩

/-- The headers of either kind of image, and what is behind them. -/
theorem headersFit_iff (hqsort : ∀ l, (lib.qsort l).Perm l) (max nt count directory : ℕ) :
    Safe (headerRegions efi max (nt + 24) count directory >>= fun (regs, authsz) =>
        bodyRegions lib efi max nt regs authsz) ↔
      HeadersFit lib efi nt count directory := by
  rw [Safe.bind]
  constructor
  · rintro ⟨hheaders, hbody⟩
    obtain ⟨hcount, hstart, hentry⟩ := (headerRegions_safe ..).mp hheaders
    obtain ⟨⟨regs, authsz⟩, hrun⟩ := headerRegions_ok hheaders
    exact ⟨hcount, hstart, hentry,
      (bodyRegions_safe hqsort max nt regs authsz hstart).mp (hbody _ hrun)⟩
  · rintro ⟨hcount, hstart, hentry, hsections⟩
    exact ⟨(headerRegions_safe ..).mpr ⟨hcount, hstart, hentry⟩, fun a _ =>
      (bodyRegions_safe hqsort max nt a.1 a.2 hstart).mpr hsections⟩

theorem efiImageParse_safe (hqsort : ∀ l, (lib.qsort l).Perm l) :
    Safe (efiImageParse lib efi) ↔ ParseFits lib efi := by
  rw [efiImageParse, ParseFits]
  split
  case isTrue hshort => exact iff_of_true ((Safe.pure _).mpr trivial) fun h => by omega
  case isFalse hlong =>
      rw [loadLE_fieldAt (by omega), C.ok_bind, Safe.ite]
      simp only [Safe.pure, implies_true, true_and, Safe.ite, Safe.outOfBounds, imp_false,
        Safe.loadLE_bind, headersFit_iff hqsort]
      generalize toLong efi.length = len, toLong (fieldAt efi 60 4) = lfanew
      grind

theorem regionsBytes_safe : ∀ regs : List ImageRegion,
    Safe (regionsBytes efi regs) ↔ ∀ r ∈ regs, r.2 ≠ 0 → r.stop ≤ efi.length
  | [] => by simp [regionsBytes]
  | r :: regs => by
      have ih := regionsBytes_safe regs
      have hregion : Safe (regionBytes efi r) ↔ (r.2 ≠ 0 → r.stop ≤ efi.length) := by
        rw [regionBytes, Safe.ite, Safe.loadN_iff]
        simp only [Safe.pure, implies_true, true_and, ne_eq]
      have hends (h : Safe (regionBytes efi r)) : ∃ a, regionBytes efi r = .ok a := by
        rw [regionBytes]
        split
        case isTrue => exact ⟨_, rfl⟩
        case isFalse hne => exact ⟨_, loadN_of_le (hregion.mp h hne)⟩
      rw [regionsBytes, Safe.bind, List.forall_mem_cons, ← hregion]
      refine and_congr_right fun h => ?_
      obtain ⟨bytes, hbytes⟩ := hends h
      simp only [Safe.bind, ih, Safe.pure, implies_true, and_true]
      exact ⟨fun h => h bytes hbytes, fun h _ _ => h⟩

end

/-! ## The SBAT -/

section

variable (buf : List UInt8)

/-- The accesses of the section loop: the names up to the one that is looked
for, and the fields of its header. -/
def NamesFit (table : ℕ) (name : List UInt8) : ℕ → ℕ → Prop
  | 0, _ => True
  | n + 1, i =>
      table + 40 * i + 8 ≤ buf.length ∧
        if Extent.slice buf (table + 40 * i, 8) = sectionName name then
          table + 20 ≤ buf.length ∧ table + 40 * i + 24 ≤ buf.length
        else NamesFit table name n (i + 1)

def PeSectionFits (name : List UInt8) : Prop :=
  ntOf buf + 8 ≤ buf.length ∧
    NamesFit buf (ntOf buf + sectionHeaders (machineOf buf)) name
      (fieldAt buf (ntOf buf + 6) 2) 0

/-- The accesses of the walk over the rows from `i` on. Each scan has to find
what stops it. -/
def RowsFit (table : SbatTable) : ℕ → List UInt8 → ℕ → Prop
  | 0, _, _ => True
  | fuel + 1, mem, i =>
      ∃ c, mem[i]? = some c ∧ (c ≠ nul →
        ∃ k, (mem.drop i).findIdx? (· ≠ lf) = some k ∧
        ∃ c, mem[i + k]? = some c ∧ (c ≠ nul →
          ∃ p, (mem.drop (i + k)).findIdx? endsColumn = some p ∧
          (mem[i + k + p]? = some comma →
            let mem := mem.set (i + k + p) nul
            let versionStr := i + k + p + 1
            ∃ q, (mem.drop versionStr).findIdx? endsColumn = some q ∧
            let mem := mem.set (versionStr + q) nul
            ∃ l, (mem.drop (versionStr + q + 1)).findIdx? endsLine = some l ∧
            (let version := (atoi ((mem.drop versionStr).takeWhile (· ≠ nul))
                % 2 ^ 32).toNat
              let product := (mem.drop (i + k)).takeWhile (· ≠ nul)
              version = 0 ∨ belowMinimum table product version = false →
                RowsFit table fuel mem (versionStr + q + 1 + l)))))

end

section

variable {buf : List UInt8}

theorem sectionLoop_safe (table : ℕ) (name : List UInt8) : ∀ (n i : ℕ),
    Safe (sectionLoop buf table name n i) ↔ NamesFit buf table name n i
  | 0, _ => by simp [sectionLoop, NamesFit]
  | n + 1, i => by
      have ih := sectionLoop_safe table name n (i + 1)
      rw [sectionLoop, Safe.loadN_bind, NamesFit]
      refine and_congr_right fun _ => ?_
      split
      case isTrue =>
          simp only [Safe.loadLE_bind, Safe.pure, and_true]
      case isFalse => exact ih

theorem getPeSection_safe (name : List UInt8) :
    Safe (getPeSection buf name) ↔ NtFits buf ∧ (IsPe buf → PeSectionFits buf name) := by
  rw [getPeSection, ntHeaders_bind buf (by simp)]
  refine and_congr_right fun _ => imp_congr_right fun _ => ?_
  simp only [Safe.loadLE_bind, PeSectionFits, sectionHeaders, sectionLoop_safe]
  exact ⟨fun h => h.2, fun h => ⟨by omega, h⟩⟩

theorem sbatScan_safe (table : SbatTable) : ∀ (fuel : ℕ) (mem : List UInt8) (i : ℕ),
    Safe (sbatScan table fuel mem i) ↔ RowsFit table fuel mem i
  | 0, _, _ => iff_of_true nofun trivial
  | fuel + 1, mem, i => by
      have ih := sbatScan_safe table fuel
      rw [sbatScan, Safe.load_bind, RowsFit]
      refine exists_congr fun c => and_congr_right fun _ => ?_
      rw [Safe.ite_pure]
      refine imp_congr_right fun _ => ?_
      rw [Safe.scanFrom_bind]
      refine exists_congr fun k => and_congr_right fun _ => ?_
      rw [Safe.load_bind]
      refine exists_congr fun c => and_congr_right fun _ => ?_
      rw [Safe.ite_pure]
      refine imp_congr_right fun _ => ?_
      rw [Safe.scanFrom_bind]
      refine exists_congr fun p => and_congr_right fun hp => ?_
      obtain ⟨c, hc, hends⟩ := getElem?_of_findIdx? hp
      rw [Safe.load_bind, hc]
      simp only [Option.some.injEq, exists_eq_left']
      rw [Safe.ite_pure]
      have hcomma : ¬(c = nul ∨ c = lf) ↔ c = comma := by
        simp only [endsColumn, Bool.or_eq_true, decide_eq_true_eq] at hends
        rcases hends with (rfl | rfl) | rfl
        all_goals decide
      rw [hcomma]
      refine imp_congr_right fun _ => ?_
      have hlt : i + k + p < mem.length := (List.getElem?_eq_some_iff.mp hc).1
      rw [Safe.store_bind, and_iff_right hlt, Safe.scanFrom_bind]
      refine exists_congr fun q => and_congr_right fun hq => ?_
      obtain ⟨d, hd, -⟩ := getElem?_of_findIdx? hq
      have hltq := (List.getElem?_eq_some_iff.mp hd).1
      rw [Safe.store_bind, and_iff_right hltq]
      generalize hset : (mem.set (i + k + p) nul).set (i + k + p + 1 + q) nul = left
      have hcut {j : ℕ} (hj : j ≤ i + k + p + 1 + q) : nul ∈ left.drop j := by
        have hnul : left[i + k + p + 1 + q]? = some nul := by
          rw [← hset]
          exact List.getElem?_set_self hltq
        refine List.mem_iff_getElem?.mpr ⟨i + k + p + 1 + q - j, ?_⟩
        rw [List.getElem?_drop, Nat.add_sub_cancel' hj, hnul]
      rw [Safe.cstrAt_bind, and_iff_right (hcut (by omega)), Safe.scanFrom_bind]
      refine exists_congr fun l => and_congr_right fun _ => ?_
      rw [Safe.ite, Safe.cstrAt_bind, and_iff_right (hcut (by omega)), Safe.ite]
      simp only [Safe.pure, implies_true, true_and, ih]
      generalize (atoi ((left.drop (i + k + p + 1)).takeWhile (· ≠ nul))
        % 2 ^ 32).toNat = version
      grind

/-- The walk is made where a section starts inside of the image. -/
theorem isRevokedBySbat_safe (strdup calloc : Bool) (table : SbatTable) :
    Safe (isRevokedBySbat strdup calloc (some table) buf) ↔
      NtFits buf ∧ (IsPe buf → PeSectionFits buf sbatSectionName) ∧
        ∀ sbat, SbatAt buf sbat → RowsFit table (buf.length + 1) buf sbat := by
  rw [isRevokedBySbat, currentTable, C.pure_eq, C.ok_bind, Safe.bind, getPeSection_safe,
    and_assoc]
  refine and_congr_right fun _ => and_congr_right fun _ => ?_
  constructor
  · rintro h sbat ⟨hlt, len, hat⟩
    have hsafe := h _ hat
    dsimp only at hsafe
    rw [if_neg (Nat.not_le.mpr hlt)] at hsafe
    exact (sbatScan_safe ..).mp hsafe
  · intro h found hfound
    cases found with
    | none => exact (Safe.pure _).mpr trivial
    | some found =>
        obtain ⟨sbat, len⟩ := found
        dsimp only
        rw [Safe.ite]
        refine ⟨fun _ => (Safe.pure _).mpr trivial, fun hlt => ?_⟩
        exact (sbatScan_safe ..).mpr (h sbat ⟨Nat.not_le.mp hlt, len, hfound⟩)

end

/-! ## The resources -/

section

variable (buf : List UInt8) (name : List UInt16) (root : ℕ)

/-- The accesses of the section loop of `RvaToPhysical`: the headers up to the
section that has the address. -/
def RvaLoopFits (table rva : ℕ) : ℕ → ℕ → Prop
  | 0, _ => True
  | n + 1, i =>
      let header := table + 40 * i
      let virtualAddress := fieldAt buf (header + 12) 4
      header + 16 ≤ buf.length ∧
        if virtualAddress ≤ rva ∧
            rva < (virtualAddress + fieldAt buf (header + 8) 4) % 2 ^ 32 then
          header + 24 ≤ buf.length
        else RvaLoopFits table rva n (i + 1)

def RvaFits (rva : ℕ) : Prop :=
  NtFits buf ∧ (IsPe buf → ntOf buf + 8 ≤ buf.length ∧
    RvaLoopFits buf (ntOf buf + sectionHeaders (machineOf buf)) rva
      (fieldAt buf (ntOf buf + 6) 2) 0)

def NameFits (entry : ℕ) : Prop :=
  let string := root + fieldAt buf entry 4 % 2 ^ 31
  entry + 4 ≤ buf.length ∧ string + 2 ≤ buf.length ∧
    (fieldAt buf string 2 = name.length → string + 2 + name.length ≤ buf.length)

/-- The accesses to an entry that is not passed over; `subFits` are those of the
call for a directory, and `nextFits` those behind it. -/
def FollowFits (entry : ℕ) (sub : ℕ → Bool → C ResourceRva)
    (subFits : ℕ → Bool → Prop) (nextFits : Bool → Prop) (found : Bool) : Prop :=
  let offset := fieldAt buf (entry + 4) 4
  entry + 8 ≤ buf.length ∧
    if 2 ^ 31 ≤ offset then
      subFits (root + offset % 2 ^ 31) found ∧
        ∀ r, sub (root + offset % 2 ^ 31) found = .ok r → r.rva = 0 → nextFits r.found
    else if found then root + offset + 8 ≤ buf.length
    else nextFits found

def DirectoryFits (dir named : ℕ) (sub : ℕ → Bool → C ResourceRva)
    (subFits : ℕ → Bool → Prop) : ℕ → ℕ → Bool → Prop
  | 0, _, _ => True
  | n + 1, i, found =>
      let entry := dir + 16 + 8 * i
      let nextFits := DirectoryFits dir named sub subFits n (i + 1)
      if !found && i < named then
        NameFits buf name root entry ∧
          (entryNamed buf name root entry = .ok true →
            FollowFits buf root entry sub subFits nextFits true) ∧
          (entryNamed buf name root entry = .ok false → nextFits found)
      else FollowFits buf root entry sub subFits nextFits found

def ResourceFits : ℕ → ℕ → Bool → Prop
  | 0, _, _ => True
  | fuel + 1, dir, found =>
      dir + 16 ≤ buf.length ∧
        DirectoryFits buf name root dir (fieldAt buf (dir + 12) 2)
          (findResourceRva buf name root fuel) (ResourceFits fuel)
          (fieldAt buf (dir + 12) 2 + fieldAt buf (dir + 14) 2) 0
          (if dir = root then false else found)

end

section

variable {buf : List UInt8} {name : List UInt16} {root : ℕ}

theorem rvaLoop_safe (table rva : ℕ) : ∀ (n i : ℕ),
    Safe (rvaLoop buf table rva n i) ↔ RvaLoopFits buf table rva n i
  | 0, _ => by simp [rvaLoop, RvaLoopFits]
  | n + 1, i => by
      have ih := rvaLoop_safe table rva n (i + 1)
      rw [rvaLoop, Safe.loadLE_bind, RvaLoopFits]
      simp only [Safe.ite, Safe.loadLE_bind, Safe.pure, ih]
      grind

theorem rvaToPhysical_safe (rva : ℕ) : Safe (rvaToPhysical buf rva) ↔ RvaFits buf rva := by
  rw [rvaToPhysical, ntHeaders_bind buf (by simp), RvaFits]
  refine and_congr_right fun _ => imp_congr_right fun _ => ?_
  simp only [Safe.loadLE_bind, rvaLoop_safe]
  exact ⟨fun h => h.2, fun h => ⟨by omega, h⟩⟩

theorem entryNamed_safe (entry : ℕ) :
    Safe (entryNamed buf name root entry) ↔ NameFits buf name root entry := by
  rw [entryNamed, Safe.loadLE_bind, NameFits]
  refine and_congr_right fun _ => ?_
  rw [Safe.loadLE_bind]
  refine and_congr_right fun _ => ?_
  simp only [Safe.ite, Safe.pure, Safe.loadN_bind, implies_true, true_and, and_true, ne_eq,
    Decidable.not_not]

theorem followEntry_safe (entry : ℕ) {sub : ℕ → Bool → C ResourceRva}
    {subFits : ℕ → Bool → Prop} (hsub : ∀ d f, Safe (sub d f) ↔ subFits d f)
    {next : Bool → C ResourceRva} {nextFits : Bool → Prop}
    (hnext : ∀ f, Safe (next f) ↔ nextFits f) (found : Bool) :
    Safe (followEntry buf root entry sub next found) ↔
      FollowFits buf root entry sub subFits nextFits found := by
  rw [followEntry, Safe.loadLE_bind, FollowFits]
  refine and_congr_right fun _ => ?_
  split
  case isTrue =>
      rw [Safe.bind, hsub]
      refine and_congr_right fun _ => forall_congr' fun r => imp_congr_right fun _ => ?_
      rw [Safe.ite, hnext]
      simp only [Safe.pure, implies_true, true_and, ne_eq, Decidable.not_not]
  case isFalse =>
      split
      case isTrue =>
          rw [Safe.loadLE_bind, Safe.loadLE_bind]
          simp only [Safe.pure, and_true]
          omega
      case isFalse => exact hnext _

theorem resourceLoop_safe (dir named : ℕ) {sub : ℕ → Bool → C ResourceRva}
    {subFits : ℕ → Bool → Prop} (hsub : ∀ d f, Safe (sub d f) ↔ subFits d f) :
    ∀ (n i : ℕ) (found : Bool),
      Safe (resourceLoop buf name root dir named sub n i found) ↔
        DirectoryFits buf name root dir named sub subFits n i found
  | 0, _, _ => by simp [resourceLoop, DirectoryFits]
  | n + 1, i, found => by
      have ih := resourceLoop_safe dir named hsub n (i + 1)
      rw [resourceLoop, DirectoryFits]
      split
      case isTrue =>
          rw [Safe.bind, entryNamed_safe, Bool.forall_bool]
          refine and_congr_right fun _ => ?_
          rw [and_comm]
          refine and_congr (imp_congr_right fun _ => ?_) (imp_congr_right fun _ => ?_)
          · exact followEntry_safe _ hsub ih true
          · exact ih found
      case isFalse => exact followEntry_safe _ hsub ih found

theorem findResourceRva_safe : ∀ (fuel dir : ℕ) (found : Bool),
    Safe (findResourceRva buf name root fuel dir found) ↔
      ResourceFits buf name root fuel dir found
  | 0, _, _ => iff_of_true nofun trivial
  | fuel + 1, dir, found => by
      rw [findResourceRva, Safe.loadLE_bind, Safe.loadLE_bind, ResourceFits,
        resourceLoop_safe dir _ (findResourceRva_safe fuel)]
      exact ⟨fun h => h.2, fun h => ⟨by omega, h⟩⟩

end

/-! ## The version of a resource -/

section

variable (fuel : ℕ) (buf : List UInt8)

/-- The accesses to the resource of a name, and its version -/
def ResourceVersionFits (name : List UInt8) (root : ℕ) : Prop :=
  ResourceFits buf (rsrcName name) root fuel root false ∧
    ∀ r, findResourceRva buf (rsrcName name) root fuel root false = .ok r →
      r.rva ≠ 0 → r.len = 4 → RvaFits buf r.rva ∧
        ∀ svnVer, rvaToPhysical buf r.rva = .ok (some svnVer) → svnVer + 4 ≤ buf.length

/-- The accesses of `IsRevokedBySvn` for one name -/
def VersionFits (name : List UInt8) : Prop :=
  let entry := ntOf buf + dataDirectory (machineOf buf) 2
  0x40 ≤ buf.length ∧ ntOf buf < 2 ^ 31 ∧ ntOf buf + 6 ≤ buf.length ∧
    entry + 8 ≤ buf.length ∧ RvaFits buf (fieldAt buf entry 4) ∧
    ∀ root, rvaToPhysical buf (fieldAt buf entry 4) = .ok (some root) →
      ResourceVersionFits fuel buf name root

/-- The accesses of `IsRevokedBySvn`: the names up to the one that is revoked -/
def SvnFits (wchar : Bool) : SbatTable → Prop
  | [] => True
  | (product, version) :: entries =>
      if !product.all isUpper || !wchar then SvnFits wchar entries
      else VersionFits fuel buf product ∧
        ∀ found, svnVersion fuel buf product = .ok found →
          (∀ svnVer ∈ found, version ≤ svnVer) → SvnFits wchar entries

end

section

variable {buf : List UInt8}

theorem resourceVersion_safe (fuel : ℕ) (name : List UInt8) (root : ℕ) :
    Safe (resourceVersion fuel buf name root) ↔
      ResourceVersionFits fuel buf name root := by
  rw [resourceVersion, Safe.bind, findResourceRva_safe, ResourceVersionFits]
  refine and_congr_right fun _ => forall_congr' fun r => imp_congr_right fun _ => ?_
  rw [Safe.ite]
  simp only [Safe.pure, implies_true, true_and, not_or, ne_eq, Decidable.not_not, and_imp]
  refine imp_congr_right fun _ => imp_congr_right fun _ => ?_
  rw [Safe.bind, rvaToPhysical_safe]
  refine and_congr_right fun _ => ?_
  constructor
  · intro h svnVer hrun
    exact (Safe.loadLE_bind.mp (h _ hrun)).1
  · intro h found hrun
    cases found with
    | none => exact (Safe.pure _).mpr trivial
    | some svnVer => exact Safe.loadLE_bind.mpr ⟨h svnVer hrun, (Safe.pure _).mpr trivial⟩

/-- The root of the resources is looked for, and the version from there. -/
theorem rootVersion_safe (fuel : ℕ) (name : List UInt8) {va : ℕ} :
    Safe (rvaToPhysical buf va >>= fun
      | none => Pure.pure none
      | some root => resourceVersion fuel buf name root) ↔ RvaFits buf va ∧
        ∀ root, rvaToPhysical buf va = .ok (some root) →
          ResourceVersionFits fuel buf name root := by
  rw [Safe.bind, rvaToPhysical_safe]
  refine and_congr_right fun _ => ⟨fun h root hrun => ?_, fun h found hrun => ?_⟩
  · exact (resourceVersion_safe fuel name root).mp (h _ hrun)
  · cases found with
    | none => exact (Safe.pure _).mpr trivial
    | some root => exact (resourceVersion_safe fuel name root).mpr (h root hrun)

theorem svnVersion_safe (fuel : ℕ) (name : List UInt8) :
    Safe (svnVersion fuel buf name) ↔ VersionFits fuel buf name := by
  rw [svnVersion, VersionFits, Safe.loadLE_bind, Safe.ite]
  refine and_congr_right fun _ => ?_
  simp only [Safe.outOfBounds, imp_false, Nat.not_le, Safe.loadLE_bind]
  refine and_congr_right fun hlt => ?_
  constructor
  · intro h
    obtain ⟨hmachine, hentry, hsize, hrest⟩ := h hlt
    exact ⟨hmachine, hsize, (rootVersion_safe fuel name).mp hrest⟩
  · rintro ⟨hmachine, hsize, hrest⟩ -
    exact ⟨hmachine, le_trans (Nat.le_add_right _ 4) hsize, hsize,
      (rootVersion_safe fuel name).mpr hrest⟩

theorem isRevokedBySvn_safe (fuel : ℕ) (wchar : Bool) : ∀ table : SbatTable,
    Safe (isRevokedBySvn fuel wchar buf table) ↔ SvnFits fuel buf wchar table
  | [] => by simp [isRevokedBySvn, SvnFits]
  | (product, version) :: entries => by
      have ih := isRevokedBySvn_safe fuel wchar entries
      rw [isRevokedBySvn, SvnFits]
      split
      case isTrue => exact ih
      case isFalse =>
          rw [Safe.bind, svnVersion_safe]
          refine and_congr_right fun _ => forall_congr' fun found =>
            imp_congr_right fun _ => ?_
          cases found with
          | none => simpa using ih
          | some svnVer =>
              dsimp only
              rw [Safe.ite, ih]
              simp

end

/-! ## The whole check -/

/-- The computation does not come to an access outside of the image. -/
def ImageSafe {α : Type} (x : OverImage α) : Prop := x ≠ .error (.image .outOfBounds)

namespace ImageSafe

variable {α β : Type}

@[simp] theorem pure (a : α) : ImageSafe (Pure.pure a) ↔ True := iff_of_true nofun trivial

@[simp] theorem onImage {x : C α} : ImageSafe (onImage x) ↔ Safe x := by
  cases x with
  | error e =>
      refine not_congr ⟨fun h => ?_, fun h => ?_⟩
      · cases h
        rfl
      · cases h
        rfl
  | ok a => exact iff_of_true nofun nofun

@[simp] theorem elsewhere {x : C α} : ImageSafe (elsewhere x) ↔ True := by
  cases x with
  | error e => exact iff_of_true nofun trivial
  | ok a => exact iff_of_true nofun trivial

theorem bind {x : OverImage α} {f : α → OverImage β} :
    ImageSafe (x >>= f) ↔ ImageSafe x ∧ ∀ a, x = .ok a → ImageSafe (f a) := by
  cases x with
  | error e =>
      refine ⟨fun h => ⟨fun he => ?_, nofun⟩, fun h he => ?_⟩
      · cases he
        exact h rfl
      · cases he
        exact h.1 rfl
  | ok a =>
      refine ⟨fun h => ⟨nofun, ?_⟩, fun h => h.2 a rfl⟩
      rintro _ ⟨⟩
      exact h

theorem ite {c : Prop} [Decidable c] {x y : OverImage α} :
    ImageSafe (if c then x else y) ↔ (c → ImageSafe x) ∧ (¬c → ImageSafe y) := by
  split
  case isTrue h => exact ⟨fun hx => ⟨fun _ => hx, fun hn => absurd h hn⟩, fun hx => hx.1 h⟩
  case isFalse h => exact ⟨fun hy => ⟨fun hc => absurd hc h, fun _ => hy⟩, fun hy => hy.2 h⟩

end ImageSafe

section

variable (env : BootloaderEnv) (buf : List UInt8)

def Digested : Prop :=
  Signed env buf ∧ 1024 ≤ buf.length ∧ buf.length ≤ 64 * 1048576

/-- The SBAT is checked against `table`. -/
def ReachesSbat (table : SbatTable) : Prop :=
  Signed env buf ∧ ∃ digest, pe256Buffer env.lib env.cpu buf = .ok (some digest) ∧
    isRevokedByDbx env.dbx digest buf = .ok false ∧ digest ∉ env.pe256ssp ∧
    currentTable env.sbatStrdup env.sbatCalloc env.sbatEntries = .ok table

/-- The accesses to a PE image, in the order of the checks, as far as they are
made. -/
structure BootloaderFits (fuel : ℕ) : Prop where
  signature : SignatureFits buf
  certificate : ∀ cert, getPeSignatureData buf = .ok (some cert) →
    CertificateFits env.crypt buf cert
  parse : Digested env buf → ParseFits env.lib buf
  regions : Digested env buf → ∀ regs, efiImageParse env.lib buf = .ok (some regs) →
    ∀ r ∈ regs, r.2 ≠ 0 → r.stop ≤ buf.length
  sbat : ∀ table, ReachesSbat env buf table →
    PeSectionFits buf sbatSectionName ∧
      ∀ sbat, SbatAt buf sbat → RowsFit table (buf.length + 1) buf sbat
  svn : ∀ table left, ReachesSbat env buf table →
    isRevokedBySbat env.sbatStrdup env.sbatCalloc (some table) buf = .ok (left, false) →
      SvnFits fuel left env.wchar table

end

section

variable {env : BootloaderEnv} {buf : List UInt8}

theorem elsewhere_eq_ok {α : Type} {x : C α} {a : α} : elsewhere x = .ok a ↔ x = .ok a := by
  cases x <;> simp [elsewhere, Except.mapError]

theorem pe256Buffer_safe (hqsort : ∀ l, (env.lib.qsort l).Perm l) :
    ImageSafe (pe256Buffer env.lib env.cpu buf) ↔
      (1024 ≤ buf.length ∧ buf.length ≤ 64 * 1048576 →
        ParseFits env.lib buf ∧ ∀ regs, efiImageParse env.lib buf = .ok (some regs) →
          ∀ r ∈ regs, r.2 ≠ 0 → r.stop ≤ buf.length) := by
  have hrange : ¬(buf.length < 1024 ∨ 64 * 1048576 < buf.length) ↔
    1024 ≤ buf.length ∧ buf.length ≤ 64 * 1048576 := by omega
  rw [pe256Buffer, ImageSafe.ite, hrange,
    and_iff_right fun _ => (ImageSafe.pure _).mpr trivial]
  refine imp_congr_right fun _ => ?_
  rw [ImageSafe.bind, ImageSafe.onImage, efiImageParse_safe hqsort]
  refine and_congr_right fun _ => ?_
  simp only [onImage_eq_ok]
  have hhash (pieces : List (List UInt8)) : ImageSafe (do
      let hash ← elsewhere (hashStream env.cpu .sha256
        (pieces.map fun bytes => ⟨bytes, bytes.length, le_rfl⟩))
      return some hash) := by
    rw [ImageSafe.bind]
    exact ⟨ImageSafe.elsewhere.mpr trivial, fun _ _ => (ImageSafe.pure _).mpr trivial⟩
  constructor
  · intro h regs hregs
    have hsafe := (ImageSafe.bind.mp (h _ hregs)).1
    exact (regionsBytes_safe regs).mp (ImageSafe.onImage.mp hsafe)
  · intro h found hfound
    cases found with
    | none => exact (ImageSafe.pure _).mpr trivial
    | some regs =>
        refine ImageSafe.bind.mpr ⟨?_, fun pieces _ => hhash pieces⟩
        exact ImageSafe.onImage.mpr ((regionsBytes_safe regs).mpr (h regs hfound))

theorem revokedBehindSbat_safe (fuel : ℕ) (info : CertInfo) (table : SbatTable) :
    ImageSafe (revokedBehindSbat fuel env info table buf) ↔
      SvnFits fuel buf env.wchar table := by
  rw [revokedBehindSbat, ImageSafe.bind, ImageSafe.onImage, isRevokedBySvn_safe]
  refine and_iff_left fun bySvn _ => ?_
  rw [ImageSafe.ite]
  refine ⟨fun _ => (ImageSafe.pure _).mpr trivial, fun _ => ?_⟩
  rw [ImageSafe.bind]
  refine ⟨ImageSafe.elsewhere.mpr trivial, fun byCert _ => ?_⟩
  rw [ImageSafe.ite]
  exact ⟨fun _ => (ImageSafe.pure _).mpr trivial, fun _ => (ImageSafe.pure _).mpr trivial⟩

/-- The check of the SBAT, and what follows it. -/
theorem sbat_safe (hnt : NtFits buf) (hpe : IsPe buf) (fuel : ℕ) (info : CertInfo)
    (table : SbatTable) {f : List UInt8 × Bool → OverImage (List UInt8 × ℤ)}
    (hrevoked : ∀ left, ImageSafe (f (left, true)))
    (hpasses : ∀ left, ImageSafe (f (left, false)) ↔
      ImageSafe (revokedBehindSbat fuel env info table left)) :
    ImageSafe (onImage (isRevokedBySbat env.sbatStrdup env.sbatCalloc (some table) buf)
        >>= f) ↔
      (PeSectionFits buf sbatSectionName ∧
        ∀ sbat, SbatAt buf sbat → RowsFit table (buf.length + 1) buf sbat) ∧
      ∀ left, isRevokedBySbat env.sbatStrdup env.sbatCalloc (some table) buf
        = .ok (left, false) → SvnFits fuel left env.wchar table := by
  rw [ImageSafe.bind, ImageSafe.onImage, isRevokedBySbat_safe, and_iff_right hnt,
    forall_prop_of_true hpe]
  refine and_congr_right fun _ => ⟨fun h left hrun => ?_, fun h r hrun => ?_⟩
  · have hsafe := (hpasses left).mp (h _ (onImage_eq_ok.mpr hrun))
    exact (revokedBehindSbat_safe fuel info table).mp hsafe
  · obtain ⟨left, revoked⟩ := r
    rw [onImage_eq_ok] at hrun
    cases revoked with
    | true => exact hrevoked left
    | false =>
        refine (hpasses left).mpr ((revokedBehindSbat_safe fuel info table).mpr ?_)
        exact h left hrun

theorem revokedSigned_safe (hnt : NtFits buf) (hpe : IsPe buf)
    (hmachine : ntOf buf + 6 ≤ buf.length) (fuel : ℕ) (info : CertInfo)
    (digest : List UInt8) :
    ImageSafe (revokedSigned fuel env info digest buf) ↔
      (digest ∉ env.pe256ssp → isRevokedByDbx env.dbx digest buf = .ok false → ∀ table,
        currentTable env.sbatStrdup env.sbatCalloc env.sbatEntries = .ok table →
        (PeSectionFits buf sbatSectionName ∧
          ∀ sbat, SbatAt buf sbat → RowsFit table (buf.length + 1) buf sbat) ∧
        ∀ left, isRevokedBySbat env.sbatStrdup env.sbatCalloc (some table) buf
          = .ok (left, false) → SvnFits fuel left env.wchar table) := by
  obtain ⟨machine, harch⟩ : ∃ machine, getPeArch buf = .ok machine := by
    refine ⟨machineOf buf, ?_⟩
    rw [getPeArch, ntHeaders_eq hnt, if_pos hpe, C.ok_bind]
    exact loadLE_fieldAt hmachine
  rw [revokedSigned, onImage_eq_ok.mpr harch, OverImage.ok_bind, ImageSafe.bind,
    and_iff_right (ImageSafe.elsewhere.mpr trivial), isRevokedByDbx_machine, harch,
    C.ok_bind]
  simp only [elsewhere_eq_ok, Bool.forall_bool, Bool.false_eq_true, ImageSafe.pure,
    ImageSafe.ite, implies_true, true_and, not_false_eq_true, forall_const,
    not_true_eq_false, false_imp_iff, and_true]
  rw [forall_comm]
  refine imp_congr_right fun _ => imp_congr_right fun _ => ?_
  rw [ImageSafe.bind, and_iff_right (ImageSafe.elsewhere.mpr trivial)]
  refine forall_congr' fun table => ?_
  rw [elsewhere_eq_ok]
  refine imp_congr_right fun _ => ?_
  refine sbat_safe hnt hpe fuel info table (fun left => (ImageSafe.pure _).mpr trivial)
    fun left => ?_
  show ImageSafe (revokedBehindSbat fuel env info table left >>= fun revoked =>
    Pure.pure (left, revoked)) ↔ _
  rw [ImageSafe.bind]
  exact and_iff_left fun _ _ => (ImageSafe.pure _).mpr trivial

theorem isBootloaderRevoked_fits (hqsort : ∀ l, (env.lib.qsort l).Perm l)
    (hlen : 0x100 ≤ buf.length) (fuel : ℕ) :
    ImageSafe (isBootloaderRevoked fuel env buf) ↔
      NtFits buf ∧ (IsPe buf → BootloaderFits env buf fuel) := by
  rw [isBootloaderRevoked, if_neg (by omega), ImageSafe.bind, ImageSafe.onImage,
    ntHeaders_safe]
  refine and_congr_right fun hnt => ?_
  simp only [onImage_eq_ok, ntHeaders_eq hnt]
  by_cases hpe : IsPe buf
  · rw [if_pos hpe]
    simp only [Except.ok.injEq, forall_eq', hpe, forall_const]
    constructor
    · intro h
      obtain ⟨hsignature, hcert⟩ := ImageSafe.bind.mp h
      rw [ImageSafe.onImage, getPeSignatureData_safe] at hsignature
      have hfits := hsignature.2 hpe
      -- what is behind the signature
      have hsigned (h : Signed env buf) : ∃ info, ImageSafe (pe256Buffer env.lib env.cpu
          buf) ∧ ∀ digest, pe256Buffer env.lib env.cpu buf = .ok (some digest) →
            ImageSafe (revokedSigned fuel env info digest buf) := by
        obtain ⟨cert, info, hrun, hinfo⟩ := h
        have hissuer := ImageSafe.bind.mp (hcert cert (onImage_eq_ok.mpr hrun))
        obtain ⟨hread, hbehind⟩ :=
          ImageSafe.bind.mp (hissuer.2 (some info) (onImage_eq_ok.mpr hinfo))
        exact ⟨info, hread, fun digest hdigest => hbehind (some digest) hdigest⟩
      have hdigested (h : Digested env buf) :=
        (pe256Buffer_safe hqsort).mp (hsigned h.1).choose_spec.1 h.2
      have hsbat {table : SbatTable} (h : ReachesSbat env buf table) :
          (PeSectionFits buf sbatSectionName ∧
            ∀ sbat, SbatAt buf sbat → RowsFit table (buf.length + 1) buf sbat) ∧
          ∀ left, isRevokedBySbat env.sbatStrdup env.sbatCalloc (some table) buf
            = .ok (left, false) → SvnFits fuel left env.wchar table := by
        obtain ⟨hsign, digest, hdigest, hdbx, hssp, htable⟩ := h
        obtain ⟨info, -, hrest⟩ := hsigned hsign
        exact (revokedSigned_safe hnt hpe hfits.1 fuel info digest).mp
          (hrest digest hdigest) hssp hdbx table htable
      exact
        { signature := hfits
          certificate := fun cert hrun => (getIssuerCertificateInfo_safe _ _ _).mp
            (ImageSafe.onImage.mp
              (ImageSafe.bind.mp (hcert _ (onImage_eq_ok.mpr hrun))).1)
          parse := fun h => (hdigested h).1
          regions := fun h => (hdigested h).2
          sbat := fun table h => (hsbat h).1
          svn := fun table left h => (hsbat h).2 left }
    · intro h
      refine ImageSafe.bind.mpr ⟨ImageSafe.onImage.mpr
        ((getPeSignatureData_safe buf).mpr ⟨hnt, fun _ => h.signature⟩), fun cert hcert => ?_⟩
      rw [onImage_eq_ok] at hcert
      refine ImageSafe.bind.mpr ⟨ImageSafe.onImage.mpr ?_, fun info hinfo => ?_⟩
      · cases cert with
        | none => exact (Safe.pure _).mpr trivial
        | some cert =>
            exact (getIssuerCertificateInfo_safe _ _ _).mpr (h.certificate cert hcert)
      rw [onImage_eq_ok] at hinfo
      cases info with
      | none => exact (ImageSafe.pure _).mpr trivial
      | some info =>
          have hsign : Signed env buf := ⟨cert, info, hcert, hinfo⟩
          refine ImageSafe.bind.mpr ⟨(pe256Buffer_safe hqsort).mpr fun hrange =>
            ⟨h.parse ⟨hsign, hrange⟩, h.regions ⟨hsign, hrange⟩⟩, fun digest hdigest => ?_⟩
          cases digest with
          | none => exact (ImageSafe.pure _).mpr trivial
          | some digest =>
              refine (revokedSigned_safe hnt hpe h.signature.1 fuel info digest).mpr ?_
              intro hssp hdbx table htable
              have hreach : ReachesSbat env buf table :=
                ⟨hsign, digest, hdigest, hdbx, hssp, htable⟩
              exact ⟨h.sbat table hreach, fun left => h.svn table left hreach⟩
  · rw [if_neg hpe]
    simp [hpe]

end

/-- **The image is not read outside of its bounds** exactly where the headers are
inside of it, and with those of a PE image what the checks follow from there, as
far as they come. -/
theorem isBootloaderRevoked_safe_iff (env : BootloaderEnv)
    (hqsort : ∀ l, (env.lib.qsort l).Perm l) (buf : List UInt8)
    (hlen : 0x100 ≤ buf.length) :
    (∀ fuel, ImageSafe (isBootloaderRevoked fuel env buf)) ↔
      NtFits buf ∧ (IsPe buf → ∀ fuel, BootloaderFits env buf fuel) := by
  simp only [isBootloaderRevoked_fits hqsort hlen]
  exact ⟨fun h => ⟨(h 0).1, fun hpe fuel => (h fuel).2 hpe⟩,
    fun h fuel => ⟨h.1, fun hpe => h.2 hpe fuel⟩⟩

theorem isBootloaderRevoked_safe_iff_oldShim :
    NtFits oldShim ∧ (IsPe oldShim → ∀ fuel, BootloaderFits oneMinimum oldShim fuel) := by
  have hlen : 0x100 ≤ oldShim.length := by decide +kernel
  refine (isBootloaderRevoked_safe_iff oneMinimum (fun l => List.Perm.refl l) oldShim
    hlen).mp fun fuel => ?_
  rw [oldShim_revoked fuel]
  nofun

/-- A DOS header of 256 bytes whose NT headers are at 64 KB. -/
def farHeaders : List UInt8 :=
  [0x4d, 0x5a] ++ List.replicate 58 0 ++ leBytes 4 65536 ++ List.replicate 192 0

/-- The signature is looked for there. -/
theorem isBootloaderRevoked_outOfBounds :
    farHeaders.length = 0x100 ∧ ∀ fuel env,
      isBootloaderRevoked fuel env farHeaders = .error (.image .outOfBounds) := by
  have hlen : farHeaders.length = 0x100 := by decide +kernel
  have hheaders : ntHeaders farHeaders = .error .outOfBounds := by decide +kernel
  refine ⟨hlen, fun fuel env => ?_⟩
  rw [isBootloaderRevoked, if_neg (by omega), hheaders]
  rfl

end Nawam
