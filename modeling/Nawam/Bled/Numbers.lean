import Nawam.Bled.SevenZipFolder
import Nawam.Bled.XzSize

/-!
# Numbers of variable length

`xz_read_vli` and `sz_read_num` on the encodings of their formats. In a file that breaks off
in a number, each of them gives `UINT64_MAX`, having read up to the end of the buffer; so does
the first one behind nine bytes of a number that is still not at its end.
-/

namespace Nawam

/-- `read` gets `n` from `code` whatever is behind it, and `UINT64_MAX` from a part of it. -/
structure ReadsNumber (read : List UInt8 → ℕ → ℕ → C (ℕ × ℕ)) (code : List UInt8) (n : ℕ) :
    Prop where
  reads : ∀ (buf rest : List UInt8) (pos : ℕ), buf.drop pos = code ++ rest →
    read buf buf.length pos = .ok (n, pos + code.length)
  truncated : ∀ (buf : List UInt8) (pos k : ℕ), k < code.length → buf.drop pos = code.take k →
    read buf buf.length pos = .ok (uint64Max, pos + k)

/-! ## XZ -/

section

variable {buf rest : List UInt8}

/-- All but the last byte of a number say that there are more. -/
theorem vliBytes_take : ∀ (v : ℕ) {k : ℕ}, k < (vliBytes v).length →
    ∀ b ∈ (vliBytes v).take k, 128 ≤ b.toNat := by
  intro v
  induction v using Nat.strong_induction_on with
  | h v ih =>
      intro k hk b hb
      cases k with
      | zero => cases hb
      | succ k =>
          rcases Nat.lt_or_ge v 128 with hsmall | hlarge
          · rw [vliBytes_of_lt hsmall, List.length_singleton] at hk
            omega
          · rw [vliBytes_of_le hlarge] at hk hb
            rw [List.length_cons] at hk
            rcases List.mem_cons.mp hb with rfl | hb
            · rw [toNat_ofNat_of_lt (by omega)]
              omega
            · exact ih (v / 128) (by omega) (by omega) b hb

theorem vliBytes_length_le : ∀ (k : ℕ) {v : ℕ}, v < 128 ^ (k + 1) → (vliBytes v).length ≤ k + 1
  | 0, v, h => by
      rw [vliBytes_of_lt (by omega)]
      exact Nat.le_refl 1
  | k + 1, v, h => by
      rcases Nat.lt_or_ge v 128 with hsmall | hlarge
      · rw [vliBytes_of_lt hsmall, List.length_singleton]
        omega
      · rw [vliBytes_of_le hlarge, List.length_cons]
        exact Nat.succ_le_succ (vliBytes_length_le k (Nat.div_lt_of_lt_mul (by
          rw [← Nat.pow_succ']
          exact h)))

/-- Bytes that say that there are more, up to the end of the buffer or of the turns -/
theorem xzReadVliLoop_continued : ∀ {code : List UInt8} (fuel : ℕ) {pos val shift : ℕ}, shift + 7 * fuel = 63 →
    (∀ b ∈ code, 128 ≤ b.toNat) → buf.drop pos = code ++ rest →
    (rest = [] ∧ code.length ≤ fuel ∨ code.length = fuel) →
    xzReadVliLoop buf buf.length (fuel + 1) pos val shift = .ok (uint64Max, pos + code.length) := by
  intro code
  induction code with
  | nil =>
      intro fuel pos val shift hshift _ hdrop hend
      rw [xzReadVliLoop]
      rcases hend with ⟨rfl, -⟩ | hfuel
      · rw [if_pos (List.drop_eq_nil_iff.mp hdrop)]
        rfl
      · obtain rfl : 0 = fuel := hfuel
        have hfull : 63 ≤ shift := by omega
        rw [if_pos hfull, ite_self]
        rfl
  | cons b code ih =>
      intro fuel pos val shift hshift hcode hdrop hend
      obtain ⟨hlt, hload, hnext⟩ := load_of_drop hdrop
      have hb : 128 ≤ b.toNat := hcode b List.mem_cons_self
      rw [List.length_cons] at hend ⊢
      obtain ⟨fuel, rfl⟩ : ∃ f, fuel = f + 1 := ⟨fuel - 1, by omega⟩
      have hmore := mt (octet_bits b.toNat_lt).2.mp (Nat.not_lt.mpr hb)
      rw [xzReadVliLoop, if_neg (Nat.not_le.mpr hlt), if_neg (by omega), hload, C.ok_bind,
        if_neg hmore, ih fuel (by omega) (fun c hc => hcode c (List.mem_cons_of_mem b hc)) hnext
          (hend.imp (And.imp_right Nat.le_of_succ_le_succ) Nat.succ.inj), Nat.add_assoc,
        Nat.add_comm 1]

/-- A number that has not ended with its ninth byte -/
theorem xzReadVli_overlong {code : List UInt8} {pos : ℕ} (hlength : code.length = 9)
    (hcode : ∀ b ∈ code, 128 ≤ b.toNat) (h : buf.drop pos = code ++ rest) :
    xzReadVli buf buf.length pos = .ok (uint64Max, pos + 9) := by
  rw [xzReadVli, xzReadVliLoop_continued 9 rfl hcode h (.inr hlength), hlength]

theorem readsNumber_vli {n : ℕ} (hn : n < 2 ^ 63) : ReadsNumber xzReadVli (vliBytes n) n where
  reads := fun _ _ _ => xzReadVli_vli hn
  truncated := by
    intro buf pos k hk hdrop
    have hle : (vliBytes n).length ≤ 9 := vliBytes_length_le 8 hn
    have htake : ((vliBytes n).take k).length = k := List.length_take_of_le hk.le
    rw [← List.append_nil ((vliBytes n).take k)] at hdrop
    rw [xzReadVli, xzReadVliLoop_continued 9 rfl (vliBytes_take n hk) hdrop
      (.inl ⟨rfl, by omega⟩), htake]

end

/-! ## 7z -/

namespace SzNumber

/-- There is room for `n` with 8 bytes behind the first one. -/
theorem exists_room {n : ℕ} (hn : n < 2 ^ 64) : ∃ k, n < 256 ^ k * 2 ^ (7 - k) := ⟨8, hn⟩

/-- The encoding of a number that has as few bytes as it can -/
def shortest (n : ℕ) (hn : n < 2 ^ 64) : SzNumber :=
  let k := Nat.find (exists_room hn)
  { extra := leBytes k (n % 256 ^ k)
    high := n / 256 ^ k
    extra_le := by
      rw [leBytes_length]
      exact Nat.find_min' (exists_room hn) hn
    high_lt := by
      rw [leBytes_length, Nat.div_lt_iff_lt_mul (Nat.pow_pos (by decide)), Nat.mul_comm]
      exact Nat.find_spec (exists_room hn) }

theorem shortest_value {n : ℕ} (hn : n < 2 ^ 64) : (shortest n hn).value = n := by
  have hpos : 0 < 256 ^ Nat.find (exists_room hn) := Nat.pow_pos (by decide)
  rw [value, shortest, leBytes_length, leValue_leBytes _ _ (Nat.mod_lt _ hpos)]
  exact Nat.mod_add_div n _

theorem shortest_length_le (e : SzNumber) (hn : e.value < 2 ^ 64) :
    (shortest e.value hn).bytes.length ≤ e.bytes.length := by
  rw [bytes, bytes, List.length_cons, List.length_cons, shortest, leBytes_length]
  exact Nat.succ_le_succ (Nat.find_min' (exists_room hn) e.value_lt_pow)

end SzNumber

section

variable {eh : List UInt8}

/-- The loop, in a buffer that ends before the bytes behind the first one do -/
theorem szReadNumLoop_truncated (n : SzNumber) :
    ∀ (k value : ℕ) (done : List UInt8) {left lost : List UInt8} {pos : ℕ}, done.length + k = 8 →
    n.extra = done ++ (left ++ lost) → lost ≠ [] → eh.drop pos = left →
    szReadNumLoop eh eh.length n.first k (2 ^ k >>> 1) value pos =
      .ok (uint64Max, pos + left.length) := by
  intro k
  induction k with
  | zero =>
      intro value done left lost pos hdone hextra hlost _
      have hlen := n.extra_le
      have hpos := List.length_pos_iff.mpr hlost
      rw [hextra, List.length_append, List.length_append] at hlen
      omega
  | succ k ih =>
      intro value done left lost pos hdone hextra hlost hdrop
      have hpos := List.length_pos_iff.mpr hlost
      have hone : ¬n.first &&& 2 ^ k = 0 := by
        refine n.first_and_of_lt ?_ (by omega)
        rw [hextra, List.length_append, List.length_append]
        omega
      rw [mask_shiftRight, szReadNumLoop, if_neg hone]
      cases left with
      | nil =>
          rw [if_pos (List.drop_eq_nil_iff.mp hdrop)]
          rfl
      | cons b left =>
          obtain ⟨hlt, hload, hnext⟩ := load_of_drop hdrop
          rw [if_neg (Nat.not_le.mpr hlt), hload, C.ok_bind,
            ih _ (done ++ [b]) (by rw [List.length_append, List.length_singleton]; omega)
              (by rw [hextra, List.append_assoc]; rfl) hlost hnext, List.length_cons, Nat.add_assoc,
            Nat.add_comm 1]

theorem SzNumber.readsNumber (n : SzNumber) : ReadsNumber szReadNum n.bytes n.value where
  reads := fun _ _ _ => szReadNum_eq n
  truncated := by
    intro eh pos k hk hdrop
    rw [szReadNum]
    cases k with
    | zero =>
        rw [if_pos (List.drop_eq_nil_iff.mp hdrop)]
        rfl
    | succ k =>
        rw [bytes, List.length_cons] at hk
        rw [bytes, List.take_succ_cons] at hdrop
        obtain ⟨hlt, hload, hnext⟩ := load_of_drop hdrop
        have hbyte : (UInt8.ofNat n.first).toNat = n.first := toNat_ofNat_of_lt n.first_lt
        have hlost : n.extra.drop k ≠ [] := by
          rw [Ne, List.drop_eq_nil_iff]
          omega
        have hloop := szReadNumLoop_truncated n 8 0 [] rfl
          (List.take_append_drop k n.extra).symm hlost hnext
        rw [List.length_take_of_le (by omega)] at hloop
        rw [if_neg (Nat.not_le.mpr hlt), hload, C.ok_bind, hbyte, Nat.add_comm k, ← Nat.add_assoc]
        exact hloop

end

/-- Every number that a format has is read from its encoding, and from no part of it; an XZ
number does not go on behind its ninth byte. -/
theorem readsNumber_encoded (n : ℕ) :
    (n < 2 ^ 63 → ReadsNumber xzReadVli (vliBytes n) n) ∧
    (∀ (buf code rest : List UInt8) (pos : ℕ), code.length = 9 → (∀ b ∈ code, 128 ≤ b.toNat) →
      buf.drop pos = code ++ rest → xzReadVli buf buf.length pos = .ok (uint64Max, pos + 9)) ∧
    (n < 2 ^ 64 - 1 → (∃ e : SzNumber, e.value = n ∧
        ∀ e' : SzNumber, e'.value = n → e.bytes.length ≤ e'.bytes.length) ∧
      ∀ e : SzNumber, e.value = n → ReadsNumber szReadNum e.bytes n) := by
  refine ⟨readsNumber_vli, fun _ _ _ _ => xzReadVli_overlong, fun hn => ⟨?_, ?_⟩⟩
  · have hlt : n < 2 ^ 64 := by omega
    refine ⟨SzNumber.shortest n hlt, SzNumber.shortest_value hlt, ?_⟩
    rintro e rfl
    exact e.shortest_length_le hlt
  · rintro e rfl
    exact e.readsNumber

/-- 300 in both formats, a part of it, and zero in ten bytes -/
theorem readsNumber_encoded_at_300 :
    xzReadVli [0, 0xAC, 0x02, 7] 4 1 = .ok (300, 3) ∧
    xzReadVli [0, 0xAC] 2 1 = .ok (uint64Max, 2) ∧
    xzReadVli (List.replicate 9 0x80 ++ [0]) 10 0 = .ok (uint64Max, 9) ∧
    szReadNum [0, 0x81, 0x2C, 7] 4 1 = .ok (300, 3) ∧
    szReadNum [0, 0x81] 2 1 = .ok (uint64Max, 2) := by
  obtain ⟨hxz, hlong, hsz⟩ := readsNumber_encoded 300
  have hvli : vliBytes 300 = [0xAC, 0x02] := by
    rw [vliBytes_of_le (by decide), vliBytes_of_lt (by decide)]
    rfl
  have hnumber := (hsz (by decide)).2 ⟨[0x2C], 1, by decide, by decide⟩ (by decide)
  refine ⟨?_, ?_, ?_, ?_, ?_⟩
  · have hreads := (hxz (by decide)).reads [0, 0xAC, 0x02, 7] [7] 1 (by rw [hvli]; rfl)
    rw [hvli] at hreads
    exact hreads
  · exact (hxz (by decide)).truncated [0, 0xAC] 1 1 (by rw [hvli]; decide) (by rw [hvli]; rfl)
  · refine hlong _ (List.replicate 9 0x80) [0] 0 rfl (fun b hb => ?_) rfl
    rw [List.eq_of_mem_replicate hb]
    decide
  · exact hnumber.reads [0, 0x81, 0x2C, 7] [7] 1 rfl
  · exact hnumber.truncated [0, 0x81] 1 1 (by decide) rfl

end Nawam
