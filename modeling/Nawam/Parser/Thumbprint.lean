import Nawam.Parser.Sbat

/-!
# The certificate thumbprint parser

`GetThumbprintEntries` of `parser.c`: one pass over a NUL-terminated text,
into a `calloc`ed list with room for as many thumbprints as there are lines.
The digits of a line are shifted into the slot behind the last complete
thumbprint, and the count goes up with the fortieth. Unlike the SBAT parser
it copies, so the list does not depend on the text afterwards.

`getThumbprintEntries_reads` says that on a text the validator accepts the
list holds one thumbprint per data row, in order.
-/

namespace Nawam

open Ascii

abbrev sha1Hashsize : ℕ := 20

/-- `thumbprint_list_t`: the count, and the bytes of the list behind it. -/
structure ThumbprintList where
  count : ℕ
  list : List UInt8
deriving DecidableEq, Repr

def isHexascii (c : UInt8) : Bool :=
  (48 ≤ c && c ≤ 57) || (65 ≤ c && c ≤ 70) || (97 ≤ c && c ≤ 102)

def fromHexascii (c : UInt8) : UInt8 :=
  if 48 ≤ c ∧ c ≤ 57 then c - 48
  else if 65 ≤ c ∧ c ≤ 90 then c - 65 + 10
  else if 97 ≤ c ∧ c ≤ 122 then c - 97 + 10
  else 0

/-- The loop over the digits of a line, `j` digits in: the cursor behind it
and the list. -/
def digitLoop : ℕ → List UInt8 → ℕ → ℕ → ThumbprintList →
    C (ℕ × ThumbprintList)
  | 0, _, _, _, _ => .error .outOfFuel
  | fuel + 1, mem, i, j, t => do
      let c ← load mem i
      if c = lf ∨ c = nul then return (i, t)
      else if !isHexascii c then return (i, t)
      else if sha1Hashsize ≤ j / 2 then return (i, t)
      else
        let k := t.count * sha1Hashsize + j / 2
        let b ← load t.list k
        let list ← store t.list k (b <<< 4)
        let b ← load list k
        let list ← store list k (b ||| fromHexascii c)
        let count := if j = 2 * sha1Hashsize - 1 then t.count + 1 else t.count
        digitLoop fuel mem (i + 1) (j + 1) ⟨count, list⟩

/-- The walk, one line feed, skipped line or row per iteration. A row takes
at most 41 iterations of the digit loop. -/
def thumbprintLoop : ℕ → List UInt8 → ℕ → ThumbprintList → C ThumbprintList
  | 0, _, _, _ => .error .outOfFuel
  | fuel + 1, mem, i, t => do
      let c ← load mem i
      if c = nul then return t
      else if c = lf then thumbprintLoop fuel mem (i + 1) t
      else if !isHexascii c then
        let i ← scanFrom endsLine mem i
        thumbprintLoop fuel mem i t
      else
        let (i, t) ← digitLoop (2 * sha1Hashsize + 1) mem i 0 t
        let i ← scanFrom endsLine mem i
        thumbprintLoop fuel mem i t

/-- `GetThumbprintEntries`: the list, `none` for `NULL`. `calloc` is whether
the allocation succeeds; a `NULL` text is left to the callers. -/
def getThumbprintEntries (calloc : Bool) (mem : List UInt8) :
    C (Option ThumbprintList) := do
  let text ← cstrAt mem 0
  let numEntries := (1 + text.count lf) % 2 ^ 32
  if !calloc then return none
  else
    let list := List.replicate (numEntries * sha1Hashsize % 2 ^ 32) 0
    let t ← thumbprintLoop (mem.length + 1) mem 0 ⟨0, list⟩
    return if t.count = 0 then none else some t

/-! ## The digits of a row -/

/-- The byte two digits stand for. -/
def hexByte (a b : UInt8) : UInt8 := fromHexascii a <<< 4 ||| fromHexascii b

def hexBytes : List UInt8 → List UInt8
  | a :: b :: rest => hexByte a b :: hexBytes rest
  | _ => []

/-- The two digits push out whatever the byte held before. -/
theorem shift_two_digits (x d e : UInt8) :
    (x <<< 4 ||| d) <<< 4 ||| e = d <<< 4 ||| e := by
  have hout : ∀ x : UInt8, x <<< 4 <<< 4 = 0 := forall_byte (by decide +kernel)
  rw [UInt8.shiftLeft_or, hout, UInt8.zero_or]

theorem isHexascii_iff : ∀ c : UInt8,
    isHexascii c = (digitValue c).isSome :=
  forall_byte (by decide +kernel)

theorem not_endsLine_of_isHexascii : ∀ c : UInt8, isHexascii c = true →
    c ≠ lf ∧ c ≠ nul :=
  forall_byte (by decide +kernel)

theorem digitLoop_digit (fuel : ℕ) (pre rest : List UInt8) {c : UInt8}
    (hc : isHexascii c = true) {j count : ℕ} (hj : j / 2 < sha1Hashsize)
    {front back : List UInt8} (x : UInt8)
    (hfront : front.length = count * sha1Hashsize + j / 2) :
    digitLoop (fuel + 1) (pre ++ c :: rest) pre.length j
        ⟨count, front ++ x :: back⟩ =
      digitLoop fuel (pre ++ c :: rest) (pre.length + 1) (j + 1)
        ⟨if j = 2 * sha1Hashsize - 1 then count + 1 else count,
          front ++ (x <<< 4 ||| fromHexascii c) :: back⟩ := by
  obtain ⟨hlf, hnul⟩ := not_endsLine_of_isHexascii c hc
  rw [digitLoop, load_append_cons]
  simp only [C.ok_bind]
  rw [if_neg (by simp [hlf, hnul]), if_neg (by simp [hc]),
    if_neg (by omega)]
  simp only [← hfront, load_append_cons, store_append_cons, C.ok_bind]

/-- Two digits fill byte `m` of the slot. -/
theorem digitLoop_pair (fuel : ℕ) (pre rest : List UInt8) {a b : UInt8}
    (ha : isHexascii a = true) (hb : isHexascii b = true) {m count : ℕ}
    (hm : m < sha1Hashsize) {front : List UInt8} (back : List UInt8) (x : UInt8)
    (hfront : front.length = count * sha1Hashsize + m) :
    digitLoop (fuel + 2) (pre ++ a :: b :: rest) pre.length (2 * m)
        ⟨count, front ++ x :: back⟩ =
      digitLoop fuel ((pre ++ [a, b]) ++ rest) (pre ++ [a, b]).length
        (2 * (m + 1))
        ⟨if m + 1 = sha1Hashsize then count + 1 else count,
          front ++ hexByte a b :: back⟩ := by
  have heven : 2 * m / 2 = m := by omega
  have hodd : (2 * m + 1) / 2 = m := by omega
  have hassoc : pre ++ a :: b :: rest = (pre ++ [a]) ++ b :: rest := by simp
  have hlen : pre.length + 1 = (pre ++ [a]).length := by simp
  have hnotLast : ¬ 2 * m = 2 * sha1Hashsize - 1 := by
    simp only [sha1Hashsize]
    omega
  have hlast : (2 * m + 1 = 2 * sha1Hashsize - 1) = (m + 1 = sha1Hashsize) := by
    simp only [sha1Hashsize, eq_iff_iff]
    omega
  rw [digitLoop_digit (fuel + 1) pre (b :: rest) ha (by rwa [heven]) x
    (by rwa [heven]), if_neg hnotLast, hassoc, hlen,
    digitLoop_digit fuel (pre ++ [a]) rest hb (by rwa [hodd]) _
    (by rwa [hodd]), shift_two_digits]
  simp only [hlast]
  have hassoc' : (pre ++ [a]) ++ b :: rest = (pre ++ [a, b]) ++ rest := by simp
  have hlen' : (pre ++ [a]).length + 1 = (pre ++ [a, b]).length := by simp
  rw [hassoc', hlen']
  rfl

/-- From byte `m` of the slot on, the rest of a row goes into the rest of the
slot. -/
theorem digitLoop_digits (fuel : ℕ) (rest back : List UInt8) :
    ∀ {row cur : List UInt8} {m count : ℕ} (pre front : List UInt8),
      row.length = 2 * cur.length → m + cur.length = sha1Hashsize →
      (∀ c ∈ row, isHexascii c = true) →
      (m < sha1Hashsize → front.length = count * sha1Hashsize + m) →
      digitLoop (fuel + row.length) (pre ++ (row ++ rest)) pre.length (2 * m)
          ⟨count, front ++ (cur ++ back)⟩ =
        digitLoop fuel ((pre ++ row) ++ rest) (pre ++ row).length
          (2 * sha1Hashsize)
          ⟨if m < sha1Hashsize then count + 1 else count,
            front ++ (hexBytes row ++ back)⟩
  | [], [], m, count, pre, front, _, hm, _, _ => by
      have hm' : m = sha1Hashsize := hm
      subst hm'
      simp [hexBytes]
  | [], _ :: _, _, _, _, _, hlen, _, _, _ => by simp at hlen
  | [_], cur, _, _, _, _, hlen, _, _, _ => by
      simp only [List.length_singleton] at hlen
      omega
  | _ :: _ :: _, [], _, _, _, _, hlen, _, _, _ => by simp at hlen
  | a :: b :: row, x :: cur, m, count, pre, front, hlen, hm, hhex, hfront => by
      simp only [List.length_cons] at hlen hm
      have hlt : m < sha1Hashsize := by omega
      have hslot := hfront hlt
      have ih := @digitLoop_digits fuel rest back row cur (m + 1)
        (if m + 1 = sha1Hashsize then count + 1 else count) (pre ++ [a, b])
        (front ++ [hexByte a b]) (by omega) (by omega)
        (fun c hc => hhex c (by simp [hc])) (by
          intro hlt'
          rw [if_neg (by omega), List.length_append, List.length_singleton,
            hslot, Nat.add_assoc])
      have hpair := digitLoop_pair (fuel + row.length) pre (row ++ rest)
        (hhex a (by simp)) (hhex b (by simp)) hlt (cur ++ back) x hslot
      have hfuel : fuel + (a :: b :: row).length = fuel + row.length + 2 := rfl
      -- the count went up if this was the last byte, and does so later if not
      have hcount : (if m + 1 < sha1Hashsize then
          (if m + 1 = sha1Hashsize then count + 1 else count) + 1
        else if m + 1 = sha1Hashsize then count + 1 else count) = count + 1 := by
        by_cases hlast : m + 1 = sha1Hashsize
        · rw [if_neg (by omega), if_pos hlast]
        · rw [if_pos (by omega), if_neg hlast]
      rw [hcount] at ih
      rw [hfuel, List.cons_append, List.cons_append, List.cons_append, hpair,
        if_pos hlt]
      simpa [hexBytes] using ih

/-! ## One line of a valid text -/

theorem thumbprintLoop_lf (fuel : ℕ) (pre rest : List UInt8)
    (t : ThumbprintList) :
    thumbprintLoop (fuel + 1) (pre ++ lf :: rest) pre.length t =
      thumbprintLoop fuel ((pre ++ [lf]) ++ rest) (pre ++ [lf]).length t := by
  rw [thumbprintLoop, load_append_cons]
  simp

/-- A line that does not start with a digit is passed over. -/
theorem thumbprintLoop_skip (fuel : ℕ) (pre rest : List UInt8)
    (t : ThumbprintList) {b c : UInt8} {w : List UInt8}
    (hb : isHexascii b = false) (hw : ∀ x ∈ b :: w, endsLine x = false)
    (hc : endsLine c = true) :
    thumbprintLoop (fuel + 1) (pre ++ ((b :: w) ++ c :: rest)) pre.length t =
      thumbprintLoop fuel ((pre ++ (b :: w)) ++ c :: rest)
        (pre ++ (b :: w)).length t := by
  obtain ⟨hnul, hlf⟩ := endsLine_false_iff.mp (hw b List.mem_cons_self)
  rw [thumbprintLoop, scanFrom_append hw hc, List.cons_append,
    load_append_cons]
  simp only [C.ok_bind]
  rw [if_neg hnul, if_neg hlf, if_pos (by simp [hb])]
  simp

/-- A row, and what may stand behind its digits on the line. -/
theorem thumbprintLoop_row (fuel : ℕ) (pre rest : List UInt8)
    {row tail : List UInt8} {c : UInt8} (hrow : ThumbprintRow row)
    (htail : ∀ x ∈ tail, endsLine x = false ∧ isHexascii x = false)
    (hc : endsLine c = true) {done slot back : List UInt8} {count : ℕ}
    (hdone : done.length = count * sha1Hashsize)
    (hslot : slot.length = sha1Hashsize) :
    thumbprintLoop (fuel + 1) (pre ++ ((row ++ tail) ++ c :: rest)) pre.length
        ⟨count, done ++ (slot ++ back)⟩ =
      thumbprintLoop fuel ((pre ++ (row ++ tail)) ++ c :: rest)
        (pre ++ (row ++ tail)).length
        ⟨count + 1, done ++ (hexBytes row ++ back)⟩ := by
  obtain ⟨hlen, hdigits⟩ := hrow
  have hhex : ∀ x ∈ row, isHexascii x = true := by
    intro x hx
    rw [isHexascii_iff]
    exact hdigits x hx
  -- the digit loop takes the whole row and stops behind it
  have hloop := @digitLoop_digits 1 (tail ++ c :: rest) back row slot 0 count
    pre done (by simp only [hlen, hslot, sha1Hashsize])
    (by rw [hslot, Nat.zero_add]) hhex fun _ => hdone
  have hstop : ∀ t, digitLoop 1 ((pre ++ row) ++ (tail ++ c :: rest))
      (pre ++ row).length (2 * sha1Hashsize) t
        = .ok ((pre ++ row).length, t) := by
    intro t
    cases tail with
    | nil =>
        rw [List.nil_append, digitLoop, load_append_cons]
        have hend : c = lf ∨ c = nul := by
          simpa [endsLine, or_comm] using hc
        simp only [C.ok_bind]
        rw [if_pos hend]
        rfl
    | cons d tail =>
        obtain ⟨hline, hnot⟩ := htail d List.mem_cons_self
        obtain ⟨hnul, hlf⟩ := endsLine_false_iff.mp hline
        rw [List.cons_append, digitLoop, load_append_cons]
        simp only [C.ok_bind]
        rw [if_neg (by simp [hnul, hlf]), if_pos (by simp [hnot])]
        rfl
  have hscan : scanFrom endsLine ((pre ++ row) ++ (tail ++ c :: rest))
      (pre ++ row).length = .ok ((pre ++ row).length + tail.length) :=
    scanFrom_append (fun x hx => (htail x hx).1) hc
  have hassoc : pre ++ ((row ++ tail) ++ c :: rest)
      = pre ++ (row ++ (tail ++ c :: rest)) := by simp
  obtain ⟨d, ds, rfl⟩ : ∃ d ds, row = d :: ds :=
    List.exists_cons_of_ne_nil fun h => by simp [h] at hlen
  have hd := hhex d List.mem_cons_self
  obtain ⟨hlf, hnul⟩ := not_endsLine_of_isHexascii d hd
  rw [hlen, hstop, Nat.mul_zero, if_pos (by decide)] at hloop
  rw [hassoc, thumbprintLoop]
  have hload : load (pre ++ ((d :: ds) ++ (tail ++ c :: rest))) pre.length
      = .ok d := load_append_cons ..
  rw [hload]
  simp only [C.ok_bind]
  rw [if_neg hnul, if_neg hlf, if_neg (by simp [hd]),
    show 2 * sha1Hashsize + 1 = 1 + 40 from rfl, hloop]
  simp only [C.ok_bind]
  rw [← List.append_assoc pre, hscan]
  simp only [C.ok_bind]
  have hcursor : (pre ++ (d :: ds)).length + tail.length
      = (pre ++ ((d :: ds) ++ tail)).length := by
    simp only [List.length_append, Nat.add_assoc]
  have hmem : (pre ++ (d :: ds)) ++ (tail ++ c :: rest)
      = (pre ++ ((d :: ds) ++ tail)) ++ c :: rest := by simp
  rw [hcursor, hmem]

/-- A line up to its line feed, or up to the NUL behind the text. -/
theorem thumbprintLoop_body {l tail : List UInt8}
    (htail : tail = [] ∨ tail = [cr]) (hl : ∀ b ∈ l, isTextChar b = true)
    (hrow : isDataRow l = true → ThumbprintRow l) (pre rest : List UInt8)
    {c : UInt8} (hc : endsLine c = true) {done : List UInt8}
    (zeros : List UInt8) {count : ℕ}
    (hdone : done.length = count * sha1Hashsize) :
    ∃ k, k ≤ (l ++ tail).length ∧ ∀ fuel,
      thumbprintLoop (fuel + k) (pre ++ ((l ++ tail) ++ c :: rest)) pre.length
          ⟨count, done ++ (List.replicate
            (([l].filter isDataRow).length * sha1Hashsize) 0 ++ zeros)⟩ =
        thumbprintLoop fuel ((pre ++ (l ++ tail)) ++ c :: rest)
          (pre ++ (l ++ tail)).length
          ⟨count + ([l].filter isDataRow).length,
            done ++ (([l].filter isDataRow).flatMap hexBytes ++ zeros)⟩ := by
  have htail' : ∀ x ∈ tail, endsLine x = false ∧ isHexascii x = false := by
    intro x hx
    rcases htail with rfl | rfl
    · simp at hx
    · rw [List.mem_singleton.mp hx]
      decide
  have hline : ∀ x ∈ l ++ tail, endsLine x = false := by
    intro x hx
    rcases List.mem_append.mp hx with hx | hx
    · exact (forall_byte (by decide +kernel) :
        ∀ b : UInt8, isTextChar b = true → endsLine b = false) x (hl x hx)
    · exact (htail' x hx).1
  by_cases hdata : isDataRow l = true
  · have hrows : [l].filter isDataRow = [l] := by simp [hdata]
    obtain ⟨hlen, -⟩ := hrow hdata
    refine ⟨1, by rw [List.length_append, hlen]; omega, ?_⟩
    intro fuel
    rw [hrows]
    simp only [List.length_singleton, Nat.one_mul, List.flatMap_singleton]
    exact thumbprintLoop_row fuel pre rest (hrow hdata) htail' hc hdone
      List.length_replicate
  · have hrows : [l].filter isDataRow = [] := by simp [hdata]
    simp only [hrows, List.length_nil, Nat.zero_mul, List.replicate_zero,
      List.nil_append, List.flatMap_nil, Nat.add_zero]
    cases hw : l ++ tail with
    | nil => exact ⟨0, le_rfl, fun fuel => by simp⟩
    | cons b w =>
        -- a comment, or the CR of a blank line
        have hb : isHexascii b = false := by
          rw [isDataRow_iff, not_not] at hdata
          cases l with
          | nil =>
              have hmem : b ∈ tail := by
                rw [← List.nil_append tail, hw]
                exact List.mem_cons_self
              exact (htail' b hmem).2
          | cons b' l =>
              have hhash : b' = hash := by simpa using hdata
              rw [List.cons_append, List.cons.injEq] at hw
              rw [← hw.1, hhash]
              decide
        rw [hw] at hline
        exact ⟨1, by simp, fun fuel =>
          thumbprintLoop_skip fuel pre rest _ hb hline hc⟩

theorem thumbprintLoop_feed (junk : List UInt8) {l tail : List UInt8}
    (htail : tail = [] ∨ tail = [cr]) (hl : ∀ b ∈ l, isTextChar b = true)
    (hrow : isDataRow l = true → ThumbprintRow l) (pre r : List UInt8)
    {done : List UInt8} (zeros : List UInt8) {count : ℕ}
    (hdone : done.length = count * sha1Hashsize) :
    ∃ pre' k, k + r.length ≤ ((l ++ tail) ++ lf :: r).length ∧ ∀ fuel,
      thumbprintLoop (fuel + k)
          (pre ++ (((l ++ tail) ++ lf :: r) ++ nul :: junk)) pre.length
          ⟨count, done ++ (List.replicate
            (([l].filter isDataRow).length * sha1Hashsize) 0 ++ zeros)⟩ =
        thumbprintLoop fuel (pre' ++ (r ++ nul :: junk)) pre'.length
          ⟨count + ([l].filter isDataRow).length,
            done ++ (([l].filter isDataRow).flatMap hexBytes ++ zeros)⟩ := by
  obtain ⟨k, hk, hbody⟩ := thumbprintLoop_body htail hl hrow pre
    (r ++ nul :: junk) (show endsLine lf = true by decide) zeros hdone
  refine ⟨(pre ++ (l ++ tail)) ++ [lf], k + 1, ?_, ?_⟩
  · rw [List.length_append, List.length_cons]
    omega
  · intro fuel
    have hstep := hbody (fuel + 1)
    rw [thumbprintLoop_lf] at hstep
    rw [List.append_assoc (l ++ tail), List.cons_append, Nat.add_comm k 1,
      ← Nat.add_assoc]
    exact hstep

/-- One line of a valid text: at most as many iterations as bytes, and one
more thumbprint if it is a data row. -/
theorem thumbprintLoop_line (junk : List UInt8) {s l r : List UInt8}
    (hf : FirstLine s l r) (hrow : isDataRow l = true → ThumbprintRow l)
    (pre : List UInt8) {done : List UInt8} (zeros : List UInt8) {count : ℕ}
    (hdone : done.length = count * sha1Hashsize) :
    ∃ pre' k, k + r.length ≤ s.length ∧ ∀ fuel,
      thumbprintLoop (fuel + k) (pre ++ (s ++ nul :: junk)) pre.length
          ⟨count, done ++ (List.replicate
            (([l].filter isDataRow).length * sha1Hashsize) 0 ++ zeros)⟩ =
        thumbprintLoop fuel (pre' ++ (r ++ nul :: junk)) pre'.length
          ⟨count + ([l].filter isDataRow).length,
            done ++ (([l].filter isDataRow).flatMap hexBytes ++ zeros)⟩ := by
  have hl := hf.textChar
  rcases hf.split with ⟨rfl, rfl, -⟩ | rfl | rfl
  · obtain ⟨k, hk, hbody⟩ := thumbprintLoop_body (Or.inl rfl) hl hrow pre junk
      (show endsLine nul = true by decide) zeros hdone
    rw [List.append_nil] at hk hbody
    exact ⟨pre ++ s, k, hk, hbody⟩
  · have hfeed := thumbprintLoop_feed junk (Or.inl rfl) hl hrow pre r zeros hdone
    rwa [List.append_nil] at hfeed
  · have hfeed := thumbprintLoop_feed junk (Or.inr rfl) hl hrow pre r zeros hdone
    rwa [List.append_assoc l [cr]] at hfeed

theorem hexBytes_length : ∀ {row : List UInt8} {n : ℕ}, row.length = 2 * n →
    (hexBytes row).length = n
  | [], n, h => by simp [hexBytes] at h ⊢; omega
  | [_], n, h => by simp only [List.length_singleton] at h; omega
  | _ :: _ :: row, 0, h => by simp at h
  | _ :: _ :: row, n + 1, h => by
      rw [hexBytes, List.length_cons, @hexBytes_length row n]
      simp only [List.length_cons] at h
      omega

theorem flatMap_hexBytes_length {rows : List (List UInt8)}
    (h : ∀ row ∈ rows, ThumbprintRow row) :
    (rows.flatMap hexBytes).length = rows.length * sha1Hashsize := by
  induction rows with
  | nil => rfl
  | cons row rows ih =>
      have hrow : (hexBytes row).length = sha1Hashsize :=
        hexBytes_length (h row List.mem_cons_self).1
      have hrows := ih fun r hr => h r (List.mem_cons_of_mem row hr)
      rw [List.flatMap_cons, List.length_append, hrow, hrows, List.length_cons,
        Nat.succ_mul, Nat.add_comm]

theorem thumbprintLoop_lines (junk zeros : List UInt8) :
    ∀ {s : List UInt8} {ls : List (List UInt8)}, Lines s ls →
    (∀ l ∈ ls, isDataRow l = true → ThumbprintRow l) →
    ∀ (pre : List UInt8) {done : List UInt8} {count fuel : ℕ},
      done.length = count * sha1Hashsize → s.length < fuel →
      thumbprintLoop fuel (pre ++ (s ++ nul :: junk)) pre.length
          ⟨count, done ++ (List.replicate
            ((ls.filter isDataRow).length * sha1Hashsize) 0 ++ zeros)⟩ =
        .ok ⟨count + (ls.filter isDataRow).length,
          done ++ ((ls.filter isDataRow).flatMap hexBytes ++ zeros)⟩
  | _, _, .nil, _, pre, done, count, fuel, _, hfuel => by
      obtain ⟨f, rfl⟩ : ∃ f, fuel = f + 1 := ⟨fuel - 1, by simp at hfuel; omega⟩
      simp only [List.nil_append]
      rw [thumbprintLoop, load_append_cons]
      simp
  | _, _, @Lines.cons s l r ls hf hls, hrows, pre, done, count, fuel, hdone,
      hfuel => by
      have hsplit : (l :: ls).filter isDataRow
          = [l].filter isDataRow ++ ls.filter isDataRow := by
        rw [← List.filter_append]
        rfl
      obtain ⟨pre', k, hk, hstep⟩ := thumbprintLoop_line junk hf
        (hrows l List.mem_cons_self) pre
        (List.replicate ((ls.filter isDataRow).length * sha1Hashsize) 0 ++ zeros)
        hdone
      have hdone' : (done ++ ([l].filter isDataRow).flatMap hexBytes).length
          = (count + ([l].filter isDataRow).length) * sha1Hashsize := by
        have hvalid : ∀ row ∈ [l].filter isDataRow, ThumbprintRow row := by
          intro row hrow
          obtain ⟨hmem, hdata⟩ := List.mem_filter.mp hrow
          rw [List.mem_singleton.mp hmem] at hdata ⊢
          exact hrows l List.mem_cons_self hdata
        rw [List.length_append, hdone, flatMap_hexBytes_length hvalid,
          Nat.add_mul]
      have ih := thumbprintLoop_lines junk zeros hls
        (fun x hx => hrows x (List.mem_cons_of_mem l hx)) pre' hdone'
        (show r.length < fuel - k by omega)
      have hone := hstep (fuel - k)
      rw [Nat.sub_add_cancel (by omega)] at hone
      rw [hsplit, List.length_append, Nat.add_mul, List.replicate_add,
        List.append_assoc, hone, ← List.append_assoc done, ih,
        List.flatMap_append, Nat.add_assoc, List.append_assoc,
        List.append_assoc]

/-! ## The parser agrees with the validator -/

/-- On a text the validator accepts, the list holds the thumbprints of the
data rows, in order, and nothing is written outside of it. -/
theorem getThumbprintEntries_reads {text : List UInt8} {n : ℕ}
    (junk : List UInt8) (hn : 0 < n)
    (hvalid : nawamSecurityTextValid text .thumbprint = n) :
    ∃ ls zeros, Lines text ls ∧ (ls.filter isDataRow).length = n ∧
      getThumbprintEntries true (text ++ nul :: junk)
        = .ok (some ⟨n, (ls.filter isDataRow).flatMap hexBytes ++ zeros⟩) ∧
      getThumbprintEntries false (text ++ nul :: junk) = .ok none := by
  obtain ⟨hsize, -, ls, hls, hrows, hcount⟩ :=
    (nawamSecurityTextValid_eq_iff hn).mp hvalid
  rw [List.countP_eq_length_filter] at hcount
  have hcstr : cstrAt (text ++ nul :: junk) 0 = .ok text := by
    show cstrAt (text ++ nul :: junk) ([] : List UInt8).length = .ok text
    exact cstrAt_of_prefix (nul_not_mem_of_lines hls) (by simp)
  -- the sizes are small enough for `uint32_t`
  have hlf : text.count lf ≤ text.length := List.count_le_length
  have hentries : (1 + text.count lf) % 2 ^ 32 = 1 + text.count lf :=
    Nat.mod_eq_of_lt (by omega)
  have hroom : (1 + text.count lf) * sha1Hashsize % 2 ^ 32
      = (1 + text.count lf) * sha1Hashsize :=
    Nat.mod_eq_of_lt (by simp only [sha1Hashsize]; omega)
  have hlines : n ≤ 1 + text.count lf := by
    rw [← hcount, Nat.add_comm]
    exact (List.length_filter_le _ _).trans (length_le_count_lf hls)
  obtain ⟨k, hk⟩ := Nat.exists_eq_add_of_le hlines
  have hrun := @thumbprintLoop_lines junk
    (List.replicate (k * sha1Hashsize) 0) text ls hls hrows [] [] 0
    ((text ++ nul :: junk).length + 1) (by simp) (by
      rw [List.length_append]
      omega)
  refine ⟨ls, List.replicate (k * sha1Hashsize) 0, hls, hcount, ?_, ?_⟩
  · unfold getThumbprintEntries
    rw [hcstr]
    simp only [C.ok_bind, Bool.not_true, Bool.false_eq_true, if_false]
    rw [hentries, hroom, hk, Nat.add_mul, List.replicate_add]
    simp only [List.nil_append, List.length_nil, hcount, Nat.zero_add] at hrun
    rw [hrun]
    simp [Nat.ne_of_gt hn]
  · unfold getThumbprintEntries
    rw [hcstr]
    simp

/-! ## The values of the rows -/

/-- The bytes that a row of hexadecimal digits stands for, two digits a byte. -/
inductive HexValue : List UInt8 → List UInt8 → Prop
  | nil : HexValue [] []
  | cons {a b byte : UInt8} {d e : ℕ} {row bytes : List UInt8} :
      digitValue a = some d → digitValue b = some e → byte.toNat = 16 * d + e →
      HexValue row bytes → HexValue (a :: b :: row) (byte :: bytes)

theorem fromHexascii_eq {c : UInt8} {d : ℕ} (h : digitValue c = some d) :
    fromHexascii c = UInt8.ofNat d := by
  have hall := forall_byte (p := fun c =>
    ∀ d ∈ digitValue c, fromHexascii c = UInt8.ofNat d) (by decide +kernel) c
  exact hall d h

theorem hexByte_toNat {a b : UInt8} {d e : ℕ} (ha : digitValue a = some d)
    (hb : digitValue b = some e) : (hexByte a b).toNat = 16 * d + e := by
  have hall : ∀ d < 16, ∀ e < 16,
      (UInt8.ofNat d <<< 4 ||| UInt8.ofNat e).toNat = 16 * d + e := by decide
  rw [hexByte, fromHexascii_eq ha, fromHexascii_eq hb]
  exact hall d (digitValue_lt ha) e (digitValue_lt hb)

theorem hexValue_hexBytes : ∀ {row : List UInt8} {n : ℕ}, row.length = 2 * n →
    (∀ c ∈ row, (digitValue c).isSome = true) → HexValue row (hexBytes row)
  | [], _, _, _ => .nil
  | [_], n, hlen, _ => by
      rw [List.length_singleton] at hlen
      omega
  | a :: b :: row, n, hlen, hrow => by
      obtain ⟨d, hd⟩ := Option.isSome_iff_exists.mp (hrow a List.mem_cons_self)
      obtain ⟨e, he⟩ := Option.isSome_iff_exists.mp
        (hrow b (List.mem_cons_of_mem a List.mem_cons_self))
      have hrest : HexValue row (hexBytes row) := by
        refine @hexValue_hexBytes row (n - 1) ?_ fun c hc =>
          hrow c (List.mem_cons_of_mem a (List.mem_cons_of_mem b hc))
        rw [List.length_cons, List.length_cons] at hlen
        omega
      exact .cons hd he (hexByte_toNat hd he) hrest

/-- Slot `i` of the list holds what row `i` stands for. -/
theorem slot_flatMap_hexBytes (zeros : List UInt8) :
    ∀ {rows : List (List UInt8)} {i : ℕ} {row : List UInt8},
      (∀ row ∈ rows, ThumbprintRow row) → rows[i]? = some row →
      ((rows.flatMap hexBytes ++ zeros).drop (i * sha1Hashsize)).take sha1Hashsize =
        hexBytes row
  | first :: rows, 0, row, hrows, hget => by
      have heq : first = row := by simpa using hget
      have hlen : (hexBytes first).length = sha1Hashsize :=
        hexBytes_length (hrows first List.mem_cons_self).1
      rw [Nat.zero_mul, List.drop_zero, List.flatMap_cons, List.append_assoc,
        List.take_append_of_le_length hlen.ge, List.take_of_length_le hlen.le, heq]
  | first :: rows, i + 1, row, hrows, hget => by
      have hlen : (hexBytes first).length = sha1Hashsize :=
        hexBytes_length (hrows first List.mem_cons_self).1
      have hget : rows[i]? = some row := by simpa using hget
      have ih := slot_flatMap_hexBytes zeros
        (fun r hr => hrows r (List.mem_cons_of_mem first hr)) hget
      rw [Nat.succ_mul, List.flatMap_cons, List.append_assoc, Nat.add_comm, ← hlen,
        List.drop_length_add_append, hlen]
      exact ih

/-- **The thumbprint parser agrees with the validator**: one thumbprint per data
row, in order, the 20 bytes that its 40 digits stand for, and nothing is read or
written outside of the text and of the list. -/
theorem getThumbprintEntries_of_valid (text junk : List UInt8) (n : ℕ) (hn : 0 < n)
    (hvalid : nawamSecurityTextValid text .thumbprint = n) :
    ∃ list ls, getThumbprintEntries true (text ++ nul :: junk) = .ok (some ⟨n, list⟩) ∧
      Lines text ls ∧ (ls.filter isDataRow).length = n ∧
      ∀ i row, (ls.filter isDataRow)[i]? = some row → ∃ bytes,
        (list.drop (i * sha1Hashsize)).take sha1Hashsize = bytes ∧
          bytes.length = sha1Hashsize ∧ HexValue row bytes := by
  obtain ⟨-, -, ls, hls, hrows, hcount⟩ := (nawamSecurityTextValid_eq_iff hn).mp hvalid
  obtain ⟨ls', zeros, hls', hlen, hrun, -⟩ := getThumbprintEntries_reads junk hn hvalid
  cases hls.unique hls'
  have hdata : ∀ row ∈ ls.filter isDataRow, ThumbprintRow row := by
    intro row hrow
    obtain ⟨hmem, hdata⟩ := List.mem_filter.mp hrow
    exact hrows row hmem hdata
  refine ⟨_, ls, hrun, hls, hlen, fun i row hget => ⟨hexBytes row, ?_, ?_, ?_⟩⟩
  · exact slot_flatMap_hexBytes zeros hdata hget
  · exact hexBytes_length (hdata row (List.mem_of_getElem? hget)).1
  · obtain ⟨hsize, hdigits⟩ := hdata row (List.mem_of_getElem? hget)
    exact hexValue_hexBytes (n := 20) hsize hdigits

/-- A comment, a row with CRLF, a blank line, and a row with no line end. -/
def thumbprintFixture : List UInt8 :=
  text ("# revoked\n00112233445566778899aAbBcCdDeEfF01234567\r\n\n" ++
    "ffffffffffffffffffffffffffffffffffffffff")

theorem getThumbprintEntries_of_valid_fixture :
    nawamSecurityTextValid thumbprintFixture .thumbprint = 2 ∧
    ∃ list ls, getThumbprintEntries true (thumbprintFixture ++ [nul]) =
        .ok (some ⟨2, list⟩) ∧
      Lines thumbprintFixture ls ∧ (ls.filter isDataRow).length = 2 ∧
      ∀ i row, (ls.filter isDataRow)[i]? = some row → ∃ bytes,
        (list.drop (i * sha1Hashsize)).take sha1Hashsize = bytes ∧
          bytes.length = sha1Hashsize ∧ HexValue row bytes :=
  ⟨by decide +kernel,
    getThumbprintEntries_of_valid thumbprintFixture [] 2 (by decide) (by decide +kernel)⟩

end Nawam
