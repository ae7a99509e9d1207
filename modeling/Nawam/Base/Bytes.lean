import Mathlib.Data.List.Basic
import Mathlib.Data.UInt

/-!
# Bytes, digits and checked machine access

The vocabulary every module above shares: the ASCII bytes the scanners look
for, the value of a digit byte, and the outcome type of code that touches
memory. A C function that would read or write outside its buffer, divide by
zero, fail an assertion or free the wrong block has no value in C; here it
has the value `Fault`, so "it never does that" is a statement about the
result and not about the reader's care.
-/

namespace Nawam

/-! ## The bytes the scanners look for -/

namespace Ascii

@[simp] abbrev nul : UInt8 := 0
@[simp] abbrev tab : UInt8 := 9
@[simp] abbrev lf : UInt8 := 10
@[simp] abbrev cr : UInt8 := 13
@[simp] abbrev space : UInt8 := 32
@[simp] abbrev quote : UInt8 := 34
@[simp] abbrev hash : UInt8 := 35
@[simp] abbrev plus : UInt8 := 43
@[simp] abbrev comma : UInt8 := 44
@[simp] abbrev minus : UInt8 := 45
@[simp] abbrev dot : UInt8 := 46
@[simp] abbrev zero : UInt8 := 48
@[simp] abbrev colon : UInt8 := 58
@[simp] abbrev lbracket : UInt8 := 91
@[simp] abbrev backslash : UInt8 := 92
@[simp] abbrev rbracket : UInt8 := 93
@[simp] abbrev lbrace : UInt8 := 123
@[simp] abbrev rbrace : UInt8 := 125

/-- The bytes of a string literal, without its NUL. -/
def text (s : String) : List UInt8 := s.toUTF8.data.toList

end Ascii

/-- A property of bytes holds of all of them once it holds of the 256
values; a decidable one is settled by evaluation. -/
theorem forall_byte {p : UInt8 → Prop} (h : ∀ n : Fin 256, p (.ofFin n))
    (c : UInt8) : p c := by
  simpa using h c.toFin

/-- `'0' <= c && c <= '9'` -/
def isDigit (c : UInt8) : Bool := 48 ≤ c && c ≤ 57

/-- The value of a hexadecimal digit of either case. -/
def digitValue (c : UInt8) : Option ℕ :=
  if 48 ≤ c ∧ c ≤ 57 then some (c.toNat - 48)
  else if 97 ≤ c ∧ c ≤ 102 then some (c.toNat - 97 + 10)
  else if 65 ≤ c ∧ c ≤ 70 then some (c.toNat - 65 + 10)
  else none

theorem digitValue_of_isDigit {c : UInt8} (h : isDigit c = true) :
    digitValue c = some (c.toNat - 48) := by
  simp only [isDigit, Bool.and_eq_true, decide_eq_true_eq] at h
  simp [digitValue, h]

/-- Below ten the digits are exactly the decimal ones. -/
theorem digitValue_lt_ten_iff {c : UInt8} :
    (∃ d, digitValue c = some d ∧ d < 10) ↔ isDigit c = true := by
  constructor
  · rintro ⟨d, hd, hlt⟩
    unfold digitValue at hd
    split at hd
    · simpa [isDigit] using ‹_›
    · split at hd
      · simp only [Option.some.injEq] at hd
        omega
      · split at hd
        · simp only [Option.some.injEq] at hd
          omega
        · simp at hd
  · intro h
    refine ⟨c.toNat - 48, digitValue_of_isDigit h, ?_⟩
    simp only [isDigit, Bool.and_eq_true, decide_eq_true_eq,
      UInt8.le_iff_toNat_le] at h
    have h57 : (57 : UInt8).toNat = 57 := rfl
    omega

theorem digitValue_lt {c : UInt8} {d : ℕ} (h : digitValue c = some d) :
    d < 16 := by
  unfold digitValue at h
  have h57 : (57 : UInt8).toNat = 57 := rfl
  have h102 : (102 : UInt8).toNat = 102 := rfl
  have h70 : (70 : UInt8).toNat = 70 := rfl
  simp only [UInt8.le_iff_toNat_le] at h
  split at h
  · simp only [Option.some.injEq] at h
    omega
  · split at h
    · simp only [Option.some.injEq] at h
      omega
    · split at h
      · simp only [Option.some.injEq] at h
        omega
      · simp at h

/-! ## Outcomes -/

/-- What C leaves undefined, and what the model makes of it. -/
inductive Fault where
  /-- a read or a write outside the buffer -/
  | outOfBounds
  | divideByZero
  | assertion
  /-- a block freed twice, or used after it was freed -/
  | badBlock
  /-- a loop ran past the number of iterations it was given -/
  | outOfFuel
deriving DecidableEq, Repr

/-- A computation that may fault. -/
abbrev C (α : Type) : Type := Except Fault α

/-- `assert(b)` -/
def assertThat (b : Bool) : C Unit := if b then .ok () else .error .assertion

theorem C.ok_ne_error {α : Type} {a : α} {e : Fault} : (.ok a : C α) ≠ .error e := by
  rintro ⟨⟩

theorem C.error_ne_ok {α : Type} {a : α} {e : Fault} : (.error e : C α) ≠ .ok a := by
  rintro ⟨⟩

@[simp] theorem C.ok_bind {α β : Type} (a : α) (f : α → C β) :
    (Except.ok a : C α) >>= f = f a := rfl

@[simp] theorem C.error_bind {α β : Type} (e : Fault) (f : α → C β) :
    (Except.error e : C α) >>= f = .error e := rfl

@[simp] theorem C.pure_eq {α : Type} (a : α) : (pure a : C α) = .ok a := rfl

@[simp] theorem assertThat_true : assertThat true = .ok () := rfl

/-- `a / b` on unsigned integers -/
def divide (a b : ℕ) : C ℕ :=
  if b = 0 then .error .divideByZero else .ok (a / b)

/-- `a % b` on unsigned integers -/
def modulo (a b : ℕ) : C ℕ :=
  if b = 0 then .error .divideByZero else .ok (a % b)

/-- Strings are compared byte by byte. -/
instance bytesLawfulBEq : LawfulBEq (List UInt8) := inferInstance

/-- `p[i]` -/
def load (mem : List UInt8) (i : ℕ) : C UInt8 :=
  match mem[i]? with
  | some b => .ok b
  | none => .error .outOfBounds

/-- The `n` bytes at offset `i`: what `memcmp`, `memcpy` and a struct overlay
read. -/
def loadN (mem : List UInt8) (i n : ℕ) : C (List UInt8) :=
  if i + n ≤ mem.length then .ok ((mem.drop i).take n)
  else .error .outOfBounds

/-- `a[i]` for a table of constants -/
def entry {α : Type} (table : List α) (i : ℕ) : C α :=
  match table[i]? with
  | some a => .ok a
  | none => .error .outOfBounds

/-- `p[i] = b` -/
def store (mem : List UInt8) (i : ℕ) (b : UInt8) : C (List UInt8) :=
  if i < mem.length then .ok (mem.set i b) else .error .outOfBounds

/-- `memcpy(&block[i], chunk, n)` -/
def copyInto (block : List UInt8) (i : ℕ) (chunk : List UInt8) :
    C (List UInt8) :=
  if i + chunk.length ≤ block.length then
    .ok (block.take i ++ (chunk ++ block.drop (i + chunk.length)))
  else .error .outOfBounds

theorem divide_of_pos {a b : ℕ} (h : 0 < b) : divide a b = .ok (a / b) :=
  if_neg (Nat.pos_iff_ne_zero.mp h)

theorem modulo_of_pos {a b : ℕ} (h : 0 < b) : modulo a b = .ok (a % b) :=
  if_neg (Nat.pos_iff_ne_zero.mp h)

theorem load_of_lt {mem : List UInt8} {i : ℕ} (h : i < mem.length) :
    load mem i = .ok mem[i] := by
  simp [load, List.getElem?_eq_getElem h]

theorem load_of_drop_nil {mem : List UInt8} {i : ℕ} (h : mem.drop i = []) :
    load mem i = .error .outOfBounds := by
  rw [load, List.getElem?_eq_none (List.drop_eq_nil_iff.mp h)]

/-- The byte that what is ahead begins with is read, and what is behind it is ahead next. -/
theorem load_of_drop {mem rest : List UInt8} {i : ℕ} {b : UInt8} (h : mem.drop i = b :: rest) :
    i < mem.length ∧ load mem i = .ok b ∧ mem.drop (i + 1) = rest := by
  have hget : mem[i]? = some b := by
    rw [← List.head?_drop, h, List.head?_cons]
  obtain ⟨hlt, -⟩ := List.getElem?_eq_some_iff.mp hget
  refine ⟨hlt, ?_, ?_⟩
  · rw [load, hget]
  · rw [← List.drop_drop, h]
    rfl

theorem loadN_of_le {mem : List UInt8} {i n : ℕ} (h : i + n ≤ mem.length) :
    loadN mem i n = .ok ((mem.drop i).take n) := by
  simp [loadN, h]

theorem loadN_append_right (front mem : List UInt8) {k n : ℕ}
    (h : k + n ≤ mem.length) :
    loadN (front ++ mem) (front.length + k) n = .ok ((mem.drop k).take n) := by
  rw [loadN_of_le (by simp only [List.length_append]; omega),
    ← List.drop_drop, List.drop_left]

@[simp] theorem load_append_cons (pre : List UInt8) (c : UInt8)
    (post : List UInt8) : load (pre ++ c :: post) pre.length = .ok c := by
  simp [load]

@[simp] theorem store_append_cons (pre : List UInt8) (c b : UInt8)
    (post : List UInt8) :
    store (pre ++ c :: post) pre.length b = .ok (pre ++ b :: post) := by
  simp [store]

theorem copyInto_of_le {block chunk : List UInt8} {i : ℕ}
    (h : i + chunk.length ≤ block.length) :
    copyInto block i chunk
      = .ok (block.take i ++ (chunk ++ block.drop (i + chunk.length))) :=
  if_pos h

/-! ## Little-endian fields -/

/-- The value of a little-endian field. -/
def leValue : List UInt8 → ℕ
  | [] => 0
  | b :: bs => b.toNat + 256 * leValue bs

theorem leValue_lt : ∀ bs : List UInt8, leValue bs < 256 ^ bs.length
  | [] => by simp [leValue]
  | b :: bs => by
      have hb := b.toNat_lt
      have ih := leValue_lt bs
      simp only [leValue, List.length_cons, Nat.pow_succ]
      omega

/-- The lowest `k` bytes of a number, the lowest one first. -/
def leBytes : ℕ → ℕ → List UInt8
  | 0, _ => []
  | k + 1, v => .ofNat v :: leBytes k (v / 256)

theorem leBytes_length : ∀ k v : ℕ, (leBytes k v).length = k
  | 0, _ => rfl
  | k + 1, v => congrArg (· + 1) (leBytes_length k (v / 256))

/-- The bytes of a number that fits are the field of its value. -/
theorem leValue_leBytes : ∀ k v : ℕ, v < 256 ^ k → leValue (leBytes k v) = v
  | 0, v, h => by
      rw [Nat.pow_zero, Nat.lt_one_iff] at h
      exact h.symm
  | k + 1, v, h => by
      have hrest : v / 256 < 256 ^ k := by
        rw [Nat.pow_succ] at h
        exact Nat.div_lt_of_lt_mul (by omega)
      rw [leBytes, leValue, leValue_leBytes k _ hrest, UInt8.toNat_ofNat']
      omega

/-- A field is written as the bytes that it has been read from. -/
theorem leBytes_leValue : ∀ bs : List UInt8, leBytes bs.length (leValue bs) = bs
  | [] => rfl
  | b :: bs => by
      have hb := b.toNat_lt
      rw [List.length_cons, leBytes, leValue, Nat.add_mul_div_left _ _ (by decide : 0 < 256),
        Nat.div_eq_of_lt hb, Nat.zero_add, leBytes_leValue bs]
      congr 1
      apply UInt8.toNat_inj.mp
      rw [UInt8.toNat_ofNat']
      omega

/-- The `n`-byte little-endian field at offset `i`. -/
def loadLE (mem : List UInt8) (i n : ℕ) : C ℕ := do
  let bs ← loadN mem i n
  return leValue bs

theorem loadLE_of_le {mem : List UInt8} {i n : ℕ} (h : i + n ≤ mem.length) :
    loadLE mem i n = .ok (leValue ((mem.drop i).take n)) := by
  simp [loadLE, loadN_of_le h]

theorem loadLE_append_right (front mem : List UInt8) {k n : ℕ}
    (h : k + n ≤ mem.length) :
    loadLE (front ++ mem) (front.length + k) n
      = .ok (leValue ((mem.drop k).take n)) := by
  simp [loadLE, loadN_append_right front mem h]

end Nawam
