import Nawam.Base.Pieces
import Nawam.Safety.Guards

/-!
# The DBX format

A DBX is a 16-byte time stamp, an authentication block that declares its own
length, and signature lists up to the end of the data. `SignatureList` is one
list with what makes it well formed as fields; `DbxFormat` relates the bytes
to the lists they hold. `nawamDbxValid_iff` is the validator's half of the
contract with the consumer in `hash.c`: what it accepts is exactly the format.
-/

namespace Nawam

/-! ## The format -/

/-- An EFI signature list: owner GUID and data in each signature, all
signatures of one size. -/
structure SignatureList where
  type : List UInt8
  header : List UInt8
  signatureSize : ℕ
  signatures : List (List UInt8)
  type_length : type.length = 16
  owner_fits : 16 < signatureSize
  signature_length : ∀ s ∈ signatures, s.length = signatureSize
  nonempty : signatures ≠ []

namespace SignatureList

/-- `SignatureListSize` -/
def size (l : SignatureList) : ℕ :=
  28 + l.header.length + l.signatures.length * l.signatureSize

def isSha256 (l : SignatureList) : Prop := l.type = efiCertSha256Guid

/-- The data parts of the signatures, behind the 16-byte owner. -/
def hashes (l : SignatureList) : List (List UInt8) :=
  l.signatures.map (List.drop 16)

/-- `l.BeginsAt s r`: the bytes `s` start with the list `l`, and `r` is what
follows it. -/
def BeginsAt (l : SignatureList) (s r : List UInt8) : Prop :=
  ∃ listSize headerSize signatureSize : List UInt8,
    listSize.length = 4 ∧ headerSize.length = 4 ∧ signatureSize.length = 4 ∧
    leValue listSize = l.size ∧ leValue headerSize = l.header.length ∧
    leValue signatureSize = l.signatureSize ∧
    s = l.type ++ (listSize ++ (headerSize ++ (signatureSize ++
      (l.header ++ (l.signatures.flatten ++ r)))))

end SignatureList

/-- The bytes are exactly these lists, one behind the other. -/
inductive SignatureLists : List UInt8 → List SignatureList → Prop where
  | nil : SignatureLists [] []
  | cons {s r : List UInt8} {l : SignatureList} {ls : List SignatureList} :
      l.BeginsAt s r → SignatureLists r ls → SignatureLists s (l :: ls)

def Sha256Sized (ls : List SignatureList) : Prop :=
  ∀ l ∈ ls, l.isSha256 → l.signatureSize = 48

/-- The data is a DBX: time stamp, authentication block, and the lists
`first :: ls`, the first one of SHA-256 hashes. -/
def DbxFormat (data : List UInt8) (first : SignatureList)
    (ls : List SignatureList) : Prop :=
  ∃ time authSize auth lists : List UInt8,
    data = time ++ (authSize ++ (auth ++ lists)) ∧
    time.length = 16 ∧ authSize.length = 4 ∧ 24 ≤ 4 + auth.length ∧
    leValue authSize = 4 + auth.length ∧
    SignatureLists lists (first :: ls) ∧ first.isSha256 ∧
    Sha256Sized (first :: ls)

/-! ## One list -/

section OneList

/-- The three size fields of a list at the head of `s`. -/
def listSizeOf (s : List UInt8) : ℕ := leValue ((s.drop 16).take 4)
def headerSizeOf (s : List UInt8) : ℕ := leValue ((s.drop 20).take 4)
def signatureSizeOf (s : List UInt8) : ℕ := leValue ((s.drop 24).take 4)

/-- The comparisons the validator makes on the list at the head of `s`. -/
def ListChecks (s : List UInt8) : Prop :=
  28 ≤ s.length ∧ 28 ≤ listSizeOf s ∧ listSizeOf s ≤ s.length ∧
    headerSizeOf s ≤ listSizeOf s - 28 ∧ 16 < signatureSizeOf s ∧
    signatureSizeOf s ≤ listSizeOf s - 28 - headerSizeOf s ∧
    (listSizeOf s - 28 - headerSizeOf s) % signatureSizeOf s = 0

theorem SignatureList.size_eq (l : SignatureList) :
    l.size = 28 + l.header.length + l.signatures.flatten.length := by
  rw [SignatureList.size, flatten_length l.signature_length]

theorem SignatureList.BeginsAt.fields {l : SignatureList} {s r : List UInt8}
    (h : l.BeginsAt s r) :
    s.take 16 = l.type ∧ listSizeOf s = l.size ∧
      headerSizeOf s = l.header.length ∧
      signatureSizeOf s = l.signatureSize ∧
      s.length = l.size + r.length ∧ s.drop l.size = r := by
  obtain ⟨ls, hs, ss, hls, hhs, hss, hlsv, hhsv, hssv, rfl⟩ := h
  have ht := l.type_length
  have hlen : (l.type ++ (ls ++ (hs ++ (ss ++ (l.header ++
      (l.signatures.flatten ++ r)))))).length = l.size + r.length := by
    simp only [List.length_append, l.size_eq]
    omega
  refine ⟨?_, ?_, ?_, ?_, hlen, ?_⟩
  · rw [← ht, List.take_left]
  · rw [listSizeOf, ← ht, List.drop_left, ← hls, List.take_left, hlsv]
  · have h20 : 20 = l.type.length + ls.length := by omega
    rw [headerSizeOf, h20, ← List.drop_drop, List.drop_left, List.drop_left,
      ← hhs, List.take_left, hhsv]
  · have h24 : 24 = l.type.length + (ls.length + hs.length) := by omega
    rw [signatureSizeOf, h24, ← List.drop_drop, List.drop_left,
      ← List.drop_drop, List.drop_left, List.drop_left, ← hss, List.take_left,
      hssv]
  · have hall : l.type ++ (ls ++ (hs ++ (ss ++ (l.header ++
        (l.signatures.flatten ++ r))))) = (l.type ++ (ls ++ (hs ++ (ss ++
          (l.header ++ l.signatures.flatten))))) ++ r := by simp
    have hsize : l.size = (l.type ++ (ls ++ (hs ++ (ss ++
        (l.header ++ l.signatures.flatten))))).length := by
      simp only [List.length_append, l.size_eq]
      omega
    rw [hall, hsize, List.drop_left]

/-- What is behind the lists does not change the first one. -/
theorem SignatureList.BeginsAt.append {l : SignatureList} {s r : List UInt8}
    (h : l.BeginsAt s r) (behind : List UInt8) :
    l.BeginsAt (s ++ behind) (r ++ behind) := by
  obtain ⟨ls, hs, ss, hls, hhs, hss, hlsv, hhsv, hssv, rfl⟩ := h
  refine ⟨ls, hs, ss, hls, hhs, hss, hlsv, hhsv, hssv, ?_⟩
  simp only [List.append_assoc]

theorem listChecks_of_beginsAt {l : SignatureList} {s r : List UInt8}
    (h : l.BeginsAt s r) : ListChecks s := by
  obtain ⟨-, hls, hhs, hss, hlen, -⟩ := h.fields
  have hn : 1 ≤ l.signatures.length := List.length_pos_iff.mpr l.nonempty
  have hmul : l.signatureSize ≤ l.signatures.length * l.signatureSize :=
    Nat.le_mul_of_pos_left _ hn
  have howner := l.owner_fits
  have hsub : l.size - 28 - l.header.length
      = l.signatures.length * l.signatureSize := by
    simp only [SignatureList.size]
    omega
  unfold ListChecks
  rw [hls, hhs, hss, hsub]
  refine ⟨?_, ?_, by omega, ?_, howner, hmul, Nat.mul_mod_left _ _⟩ <;>
    simp only [SignatureList.size] at * <;> omega

/-- A list that passes the comparisons is there. -/
theorem beginsAt_of_listChecks {s : List UInt8} (h : ListChecks s) :
    ∃ l : SignatureList, l.BeginsAt s (s.drop (listSizeOf s)) := by
  obtain ⟨h28, hlow, hhigh, hheader, howner, hone, hmod⟩ := h
  set k := signatureSizeOf s with hk
  set m := headerSizeOf s with hm
  set n := (listSizeOf s - 28 - m) / k with hn
  have hnk : n * k = listSizeOf s - 28 - m := by
    rw [hn, Nat.div_mul_cancel (Nat.dvd_of_mod_eq_zero hmod)]
  have hpos : 0 < n := Nat.div_pos hone (by omega)
  have hrest : n * k ≤ (s.drop (28 + m)).length := by
    rw [List.length_drop]
    omega
  let l : SignatureList :=
    { type := s.take 16
      header := (s.drop 28).take m
      signatureSize := k
      signatures := pieces k n (s.drop (28 + m))
      type_length := by rw [List.length_take]; omega
      owner_fits := howner
      signature_length := length_of_mem_pieces hrest
      nonempty := by
        intro hnil
        have := congrArg List.length hnil
        rw [pieces_length] at this
        simp at this
        omega }
  have hheaderLen : l.header.length = m := by
    show ((s.drop 28).take m).length = m
    rw [List.length_take, List.length_drop]
    omega
  have hsize : l.size = listSizeOf s := by
    show 28 + l.header.length + (pieces k n (s.drop (28 + m))).length * k = _
    rw [pieces_length, hheaderLen, hnk]
    omega
  refine ⟨l, (s.drop 16).take 4, (s.drop 20).take 4, (s.drop 24).take 4,
    ?_, ?_, ?_, ?_, ?_, rfl, ?_⟩
  · rw [List.length_take, List.length_drop]
    omega
  · rw [List.length_take, List.length_drop]
    omega
  · rw [List.length_take, List.length_drop]
    omega
  · exact hsize.symm
  · exact hheaderLen.symm
  · -- put the fields back together, from the right
    have hsigs : l.signatures.flatten ++ s.drop (listSizeOf s)
        = s.drop (28 + m) := by
      show (pieces k n (s.drop (28 + m))).flatten ++ _ = _
      have htotal : listSizeOf s = 28 + m + n * k := by omega
      have hcut := List.take_append_drop (n * k) (s.drop (28 + m))
      rw [List.drop_drop] at hcut
      rw [pieces_flatten, htotal, hcut]
    have hhead : l.header ++ s.drop (28 + m) = s.drop 28 := by
      show (s.drop 28).take m ++ _ = _
      rw [← List.drop_drop, List.take_append_drop]
    rw [hsigs, hhead]
    have h24 : (s.drop 24).take 4 ++ s.drop 28 = s.drop 24 := by
      rw [show 28 = 24 + 4 from rfl, ← List.drop_drop, List.take_append_drop]
    have h20 : (s.drop 20).take 4 ++ s.drop 24 = s.drop 20 := by
      rw [show 24 = 20 + 4 from rfl, ← List.drop_drop, List.take_append_drop]
    have h16 : (s.drop 16).take 4 ++ s.drop 20 = s.drop 16 := by
      rw [show 20 = 16 + 4 from rfl, ← List.drop_drop, List.take_append_drop]
    rw [h24, h20, h16]
    exact (List.take_append_drop 16 s).symm

end OneList

/-! ## All lists -/

/-- One iteration of the validator, in terms of what is left of the data. -/
theorem dbxLoop_eq {data : List UInt8} {offset : ℕ} {first : Bool}
    (h : offset < data.length) :
    dbxLoop data offset first = true ↔
      ListChecks (data.drop offset) ∧
      (first = true → (data.drop offset).take 16 = efiCertSha256Guid) ∧
      ((data.drop offset).take 16 = efiCertSha256Guid →
        signatureSizeOf (data.drop offset) = 48) ∧
      dbxLoop data (offset + listSizeOf (data.drop offset)) false = true := by
  have hread : ∀ k, nawamReadLE32 data (offset + k)
      = leValue (((data.drop offset).drop k).take 4) := by
    intro k
    rw [nawamReadLE32, List.drop_drop]
  rw [dbxLoop, dif_pos h]
  simp only [hread]
  by_cases h28 : data.length - offset < 28
  · rw [if_pos h28]
    simp only [Bool.false_eq_true, false_iff]
    rintro ⟨⟨hlen, -⟩, -⟩
    rw [List.length_drop] at hlen
    omega
  · rw [if_neg h28]
    by_cases hchecks : ListChecks (data.drop offset)
    · have hno := hchecks
      unfold ListChecks listSizeOf headerSizeOf signatureSizeOf at hno
      rw [List.length_drop] at hno
      rw [if_neg (by omega)]
      by_cases htype : (first = true ∧
          (data.drop offset).take 16 ≠ efiCertSha256Guid) ∨
          ((data.drop offset).take 16 = efiCertSha256Guid ∧
            leValue (((data.drop offset).drop 24).take 4) ≠ 48)
      · rw [if_pos htype]
        simp only [Bool.false_eq_true, false_iff]
        rintro ⟨-, hfirst, hsize, -⟩
        rcases htype with ⟨hf, hne⟩ | ⟨heq, hne⟩
        · exact hne (hfirst hf)
        · exact hne (hsize heq)
      · rw [if_neg htype]
        simp only [not_or, not_and, not_not] at htype
        exact ⟨fun hrest => ⟨hchecks, htype.1, htype.2, hrest⟩,
          fun hall => hall.2.2.2⟩
    · have hyes := hchecks
      unfold ListChecks listSizeOf headerSizeOf signatureSizeOf at hyes
      rw [List.length_drop] at hyes
      rw [if_pos (by omega)]
      simp [hchecks]

theorem dbxLoop_iff : ∀ (n : ℕ) (data : List UInt8) (offset : ℕ)
    (first : Bool), data.length - offset ≤ n → offset ≤ data.length →
    (dbxLoop data offset first = true ↔
      ∃ ls, SignatureLists (data.drop offset) ls ∧
        (first = true → ∀ l ∈ ls.head?, l.isSha256) ∧ Sha256Sized ls) := by
  intro n
  induction n with
  | zero =>
      intro data offset first hn hle
      have heq : offset = data.length := by omega
      subst heq
      rw [dbxLoop, dif_neg (lt_irrefl _)]
      simp only [decide_true, List.drop_length, true_iff]
      refine ⟨[], .nil, by simp, ?_⟩
      intro l hl
      simp at hl
  | succ n ih =>
      intro data offset first hn hle
      by_cases hlt : offset < data.length
      · rw [dbxLoop_eq hlt]
        constructor
        · rintro ⟨hchecks, hfirst, hsize, hrest⟩
          have hpos := hchecks.2.1
          have hmax := hchecks.2.2.1
          rw [List.length_drop] at hmax
          obtain ⟨ls, hls, -, hsized⟩ := (ih data
            (offset + listSizeOf (data.drop offset)) false (by omega)
            (by omega)).mp hrest
          obtain ⟨l, hl⟩ := beginsAt_of_listChecks hchecks
          obtain ⟨htype, -, -, hss, -⟩ := hl.fields
          rw [List.drop_drop] at hl
          refine ⟨l :: ls, .cons hl hls, ?_, ?_⟩
          · intro hf x hx
            simp only [List.head?_cons, Option.mem_some_iff] at hx
            subst hx
            show l.type = efiCertSha256Guid
            rw [← htype]
            exact hfirst hf
          · intro x hx hsha
            rcases List.mem_cons.mp hx with rfl | hx'
            · rw [← hss]
              exact hsize (htype.trans hsha)
            · exact hsized x hx' hsha
        · rintro ⟨ls, hls, hfirst, hsized⟩
          generalize hs : data.drop offset = s at *
          cases hls with
          | nil =>
              have := congrArg List.length hs
              simp only [List.length_drop, List.length_nil] at this
              omega
          | @cons _ r l ls hl hls =>
              obtain ⟨htype, hlsz, -, hss, hlen, hdrop⟩ := hl.fields
              have hchecks := listChecks_of_beginsAt hl
              have hpos := hchecks.2.1
              have hmax := hchecks.2.2.1
              have hslen : s.length = data.length - offset := by
                rw [← hs, List.length_drop]
              refine ⟨hchecks, ?_, ?_, ?_⟩
              · intro hf
                rw [htype]
                exact hfirst hf l (by simp)
              · intro hsha
                rw [hss]
                exact hsized l List.mem_cons_self (htype.symm.trans hsha)
              · rw [ih data (offset + listSizeOf s) false (by omega) (by omega),
                  ← List.drop_drop, hs, hlsz, hdrop]
                refine ⟨ls, hls, by simp, ?_⟩
                intro x hx
                exact hsized x (List.mem_cons_of_mem l hx)
      · have heq : offset = data.length := by omega
        exact ih data offset first (by omega) hle

/-- **The validator accepts exactly the format.** -/
theorem nawamDbxValid_iff (data : List UInt8) :
    nawamDbxValid data = true ↔ ∃ first ls, DbxFormat data first ls := by
  constructor
  · intro h
    unfold nawamDbxValid at h
    split at h
    · exact absurd h (by simp)
    · rename_i h40
      simp only at h
      split at h
      · exact absurd h (by simp)
      · rename_i hauth
        split at h
        · exact absurd h (by simp)
        · rename_i hend
          rw [dbxLoop_iff data.length data _ true (by omega) (by omega)] at h
          obtain ⟨ls, hls, hfirst, hsized⟩ := h
          cases ls with
          | nil =>
              generalize hs : data.drop (16 + nawamReadLE32 data 16) = s at hls
              cases hls
              have := congrArg List.length hs
              simp only [List.length_drop, List.length_nil] at this
              omega
          | cons first ls =>
              refine ⟨first, ls, data.take 16, (data.drop 16).take 4,
                (data.drop 20).take (nawamReadLE32 data 16 - 4),
                data.drop (16 + nawamReadLE32 data 16), ?_, ?_, ?_, ?_, ?_, hls,
                hfirst rfl first (by simp), hsized⟩
              · have h20 : 16 + nawamReadLE32 data 16
                    = 20 + (nawamReadLE32 data 16 - 4) := by omega
                rw [h20, ← List.drop_drop, List.take_append_drop,
                  show 20 = 16 + 4 from rfl, ← List.drop_drop,
                  List.take_append_drop, List.take_append_drop]
              · rw [List.length_take]
                omega
              · rw [List.length_take, List.length_drop]
                omega
              · rw [List.length_take, List.length_drop]
                omega
              · rw [List.length_take, List.length_drop]
                show nawamReadLE32 data 16 = _
                omega
  · rintro ⟨first, ls, time, authSize, auth, lists, rfl, htime, hauth, h24,
      hvalue, hlists, hsha, hsized⟩
    have hread : nawamReadLE32 (time ++ (authSize ++ (auth ++ lists))) 16
        = 4 + auth.length := by
      rw [nawamReadLE32, ← htime, List.drop_left, ← hauth, List.take_left,
        hvalue, hauth]
    have hdrop : (time ++ (authSize ++ (auth ++ lists))).drop
        (16 + (4 + auth.length)) = lists := by
      have hlen : 16 + (4 + auth.length)
          = time.length + (authSize.length + auth.length) := by omega
      rw [hlen, ← List.drop_drop, List.drop_left, ← List.drop_drop,
        List.drop_left, List.drop_left]
    have hne : 28 ≤ lists.length := by
      cases hlists with
      | cons hl _ => exact (listChecks_of_beginsAt hl).1
    have hlen : (time ++ (authSize ++ (auth ++ lists))).length
        = 16 + (4 + auth.length) + lists.length := by
      simp only [List.length_append]
      omega
    unfold nawamDbxValid
    rw [if_neg (by omega)]
    simp only [hread]
    rw [if_neg (by omega), if_neg (by omega),
      dbxLoop_iff _ _ _ true le_rfl (by omega), hdrop]
    exact ⟨first :: ls, hlists, fun _ l hl => by simp at hl; exact hl ▸ hsha,
      hsized⟩

/-! ## A small DBX -/

/-- A SHA-256 list of one hash, `b` repeated. -/
def tinyList (b : UInt8) : SignatureList where
  type := efiCertSha256Guid
  header := []
  signatureSize := 48
  signatures := [List.replicate 16 0 ++ List.replicate 32 b]
  type_length := rfl
  owner_fits := by decide
  signature_length := by simp
  nonempty := by simp

/-- The bytes of `tinyList`. -/
def tinyListBytes (b : UInt8) : List UInt8 :=
  efiCertSha256Guid ++ ([76, 0, 0, 0] ++ ([0, 0, 0, 0] ++ ([48, 0, 0, 0] ++
    (List.replicate 16 0 ++ List.replicate 32 b))))

/-- A DBX of two lists, the authentication block without data. -/
def tinyDbx : List UInt8 :=
  List.replicate 16 0 ++ ([24, 0, 0, 0] ++ (List.replicate 20 0 ++
    (tinyListBytes 1 ++ tinyListBytes 2)))

theorem tinyList_beginsAt (b : UInt8) (r : List UInt8) :
    (tinyList b).BeginsAt (tinyListBytes b ++ r) r :=
  ⟨[76, 0, 0, 0], [0, 0, 0, 0], [48, 0, 0, 0], rfl, rfl, rfl, rfl, rfl, rfl,
    by simp [tinyListBytes, tinyList]⟩

theorem tinyDbx_format : DbxFormat tinyDbx (tinyList 1) [tinyList 2] := by
  refine ⟨List.replicate 16 0, [24, 0, 0, 0], List.replicate 20 0, _, rfl, rfl,
    rfl, by decide, rfl, ?_, rfl, ?_⟩
  · apply SignatureLists.cons (tinyList_beginsAt 1 _)
    have hlast := tinyList_beginsAt 2 []
    rw [List.append_nil] at hlast
    exact SignatureLists.cons hlast SignatureLists.nil
  · intro l hl _
    simp only [List.mem_cons, List.not_mem_nil, or_false] at hl
    rcases hl with rfl | rfl
    · rfl
    · rfl

theorem tinyDbx_valid : nawamDbxValid tinyDbx = true :=
  (nawamDbxValid_iff tinyDbx).mpr ⟨_, _, tinyDbx_format⟩

end Nawam
