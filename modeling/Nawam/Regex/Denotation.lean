import Nawam.Regex.VmSearch

/-!
# What a pattern matches

A node of a parsed pattern relates positions of the string, with the captures as
they are there, to the positions that it can match up to. The ways through its
code are the same relation: a way from the first instruction to the place behind
the last one (`implements`).
-/

namespace Nawam.Regex

open Priority

/-- A position of the string, with the captures -/
abbrev Spot : Type := ℕ × Matches

/-- `n` steps of a relation -/
def Times {α : Type} (R : α → α → Prop) : ℕ → α → α → Prop
  | 0, x, y => y = x
  | n + 1, x, y => ∃ z, R x z ∧ Times R n z y

/-- A character of the string with `P` is gone past. -/
def Consumes (string : List UInt8) (P : UInt8 → Prop) (x y : Spot) : Prop :=
  string.getD x.1 0 ≠ Ascii.nul ∧ P (string.getD x.1 0) ∧ y = (x.1 + 1, x.2)

/-- What a node matches behind `ncaptures` captures -/
def Node.Denotes (string : List UInt8) : Node → (ncaptures : ℕ) → Spot → Spot → Prop
  | .epsilon, _, x, y => y = x
  | .character ch, _, x, y => Consumes string (· = ch) x y
  | .anyCharacter, _, x, y => Consumes string (fun _ => True) x y
  | .characterClass text, _, x, y => Consumes string (InClass text) x y
  | .characterClassNegated text, _, x, y => Consumes string (¬InClass text ·) x y
  | .concatenation left right, n, x, y =>
      ∃ z, left.Denotes string n x z ∧ right.Denotes string (n + left.captures) z y
  | .alternation left right, n, x, y =>
      left.Denotes string n x y ∨ right.Denotes string (n + left.captures) x y
  | .quantifier nmin nmax _ quantified, n, x, y =>
      ∃ k : ℕ, nmin ≤ k ∧ (nmax = -1 ∨ (k : ℤ) ≤ nmax) ∧
        Times (quantified.Denotes string n) k x y
  | .anchorBegin, _, x, y => x.1 = 0 ∧ y = x
  | .anchorEnd, _, x, y => string.getD x.1 0 = Ascii.nul ∧ y = x
  | .capture captured, n, x, y =>
      ∃ z, captured.Denotes string (n + 1) (x.1, x.2.set (n * 2) (some x.1)) z ∧
        y = (z.1, z.2.set (n * 2 + 1) (some z.1))

section Times

variable {α : Type} {R : α → α → Prop}

theorem times_add {a b : ℕ} {x y : α} :
    Times R (a + b) x y ↔ ∃ z, Times R a x z ∧ Times R b z y := by
  induction a generalizing x with
  | zero =>
      rw [Nat.zero_add]
      exact ⟨fun h => ⟨x, rfl, h⟩, fun ⟨z, hz, h⟩ => hz ▸ h⟩
  | succ a ih =>
      rw [Nat.succ_add]
      constructor
      · rintro ⟨w, hw, h⟩
        obtain ⟨z, hz, h⟩ := ih.mp h
        exact ⟨z, ⟨w, hw, hz⟩, h⟩
      · rintro ⟨z, ⟨w, hw, hz⟩, h⟩
        exact ⟨w, hw, ih.mpr ⟨z, hz, h⟩⟩

end Times

/-! ## Code in a program -/

/-- The program has these instructions from `pc` on. -/
def CodeAt (program : List Instr) (pc : ℕ) (code : List Instr) : Prop :=
  ∀ k instr, code[k]? = some instr → program[pc + k]? = some instr

section CodeAt

variable {program code code' : List Instr} {pc : ℕ} {instr : Instr}

theorem CodeAt.append (h : CodeAt program pc (code ++ code')) :
    CodeAt program pc code ∧ CodeAt program (pc + code.length) code' := by
  refine ⟨fun k i hi => h k i ?_, fun k i hi => ?_⟩
  · rw [List.getElem?_append_left (List.getElem?_eq_some_iff.mp hi).1]
    exact hi
  · have := h (code.length + k) i (by
      rw [List.getElem?_append_right (Nat.le_add_right _ _), Nat.add_sub_cancel_left]
      exact hi)
    rwa [← Nat.add_assoc] at this

theorem CodeAt.cons (h : CodeAt program pc (instr :: code)) :
    program[pc]? = some instr ∧ CodeAt program (pc + 1) code := by
  have h : CodeAt program pc ([instr] ++ code) := h
  have := h.append
  exact ⟨this.1 0 instr rfl, this.2⟩

end CodeAt

variable {program : List Instr} {string : List UInt8}

abbrev at' (pc : ℕ) (x : Spot) : (ℕ × ℕ) × Matches := ((pc, x.1), x.2)

/-- Wherever this code is in the program, the ways through it to the place `size`
behind its first instruction are what `R` relates. -/
structure Implements (program : List Instr) (string : List UInt8) (code : ℕ → List Instr)
    (size : ℕ) (R : Spot → Spot → Prop) : Prop where
  length : ∀ pc, (code pc).length = size
  complete : ∀ {pc : ℕ} {x y : Spot} {ms : Matches}, CodeAt program pc (code pc) → R x y →
    Finds (moves program string) (at' (pc + size) y) ms →
    Finds (moves program string) (at' pc x) ms
  sound : ∀ {pc n : ℕ} {x : Spot} {ms : Matches}, CodeAt program pc (code pc) →
    Leads (moves program string) n (at' pc x) ms →
    ∃ n' ≤ n, ∃ y, R x y ∧ Leads (moves program string) n' (at' (pc + size) y) ms

/-! ### One instruction -/

section Instructions

variable {pc n : ℕ} {x : Spot} {ms : Matches}

/-- What is found from an instruction that goes on, and from where it goes on -/
theorem leads_of_moves {edges : Edges (ℕ × ℕ) Matches}
    (hmoves : moves program string (pc, x.1) = some edges)
    (h : Leads (moves program string) n (at' pc x) ms) :
    ∃ n', n = n' + 1 ∧ ∃ e ∈ edges, Leads (moves program string) n' (e.1, e.2 x.2) ms := by
  cases n with
  | zero =>
      rw [Leads, hmoves] at h
      cases h.1
  | succ n =>
      obtain ⟨y, ⟨l, hl, hy⟩, h⟩ := h
      rw [show moves program string (at' pc x).1 = some edges from hmoves] at hl
      cases hl
      obtain ⟨e, he, rfl⟩ := mem_carry.mp hy
      exact ⟨n, rfl, e, he, h⟩

theorem finds_of_moves {edges : Edges (ℕ × ℕ) Matches}
    (hmoves : moves program string (pc, x.1) = some edges) {e : (ℕ × ℕ) × (Matches → Matches)}
    (he : e ∈ edges) (h : Finds (moves program string) (e.1, e.2 x.2) ms) :
    Finds (moves program string) (at' pc x) ms :=
  h.step ⟨edges, hmoves, mem_carry.mpr ⟨e, he, rfl⟩⟩

theorem moves_split {a b : ℕ} (h : program[pc]? = some (.split (some a) (some b))) (sp : ℕ) :
    moves program string (pc, sp) = some [((a, sp), id), ((b, sp), id)] := by
  rw [moves, h]
  rfl

theorem moves_jump {t : ℕ} (h : program[pc]? = some (.jump (some t))) (sp : ℕ) :
    moves program string (pc, sp) = some [((t, sp), id)] := by
  rw [moves, h]
  rfl

theorem leads_split {a b : ℕ} (h : program[pc]? = some (.split (some a) (some b)))
    (hleads : Leads (moves program string) n (at' pc x) ms) :
    ∃ n', n = n' + 1 ∧ (Leads (moves program string) n' (at' a x) ms ∨
      Leads (moves program string) n' (at' b x) ms) := by
  obtain ⟨n', hn, e, he, hleads⟩ := leads_of_moves (moves_split h x.1) hleads
  refine ⟨n', hn, ?_⟩
  rcases List.mem_cons.mp he with rfl | he
  · exact .inl hleads
  · rw [List.mem_singleton.mp he] at hleads
    exact .inr hleads

theorem leads_jump {t : ℕ} (h : program[pc]? = some (.jump (some t)))
    (hleads : Leads (moves program string) n (at' pc x) ms) :
    ∃ n', n = n' + 1 ∧ Leads (moves program string) n' (at' t x) ms := by
  obtain ⟨n', hn, e, he, hleads⟩ := leads_of_moves (moves_jump h x.1) hleads
  rw [List.mem_singleton.mp he] at hleads
  exact ⟨n', hn, hleads⟩

theorem finds_split {a b : ℕ} (h : program[pc]? = some (.split (some a) (some b)))
    (hfinds : Finds (moves program string) (at' a x) ms ∨
      Finds (moves program string) (at' b x) ms) :
    Finds (moves program string) (at' pc x) ms := by
  rcases hfinds with hfinds | hfinds
  · exact finds_of_moves (moves_split h x.1) List.mem_cons_self hfinds
  · exact finds_of_moves (moves_split h x.1) (List.mem_cons_of_mem _ List.mem_cons_self) hfinds

theorem finds_jump {t : ℕ} (h : program[pc]? = some (.jump (some t)))
    (hfinds : Finds (moves program string) (at' t x) ms) :
    Finds (moves program string) (at' pc x) ms :=
  finds_of_moves (moves_jump h x.1) List.mem_cons_self hfinds

/-- The ways of a split, in whichever order -/
theorem splitOf_eq (greedy : Bool) (a b : ℕ) :
    splitOf greedy (some a) (some b) = .split (some a) (some b) ∨
      splitOf greedy (some a) (some b) = .split (some b) (some a) := by
  cases greedy with
  | true => exact .inl rfl
  | false => exact .inr rfl

theorem leads_splitOf {greedy : Bool} {a b : ℕ}
    (h : program[pc]? = some (splitOf greedy (some a) (some b)))
    (hleads : Leads (moves program string) n (at' pc x) ms) :
    ∃ n', n = n' + 1 ∧ (Leads (moves program string) n' (at' a x) ms ∨
      Leads (moves program string) n' (at' b x) ms) := by
  rcases splitOf_eq greedy a b with heq | heq
  · rw [heq] at h
    exact leads_split h hleads
  · rw [heq] at h
    obtain ⟨n', hn, hleads⟩ := leads_split h hleads
    exact ⟨n', hn, hleads.symm⟩

theorem finds_splitOf {greedy : Bool} {a b : ℕ}
    (h : program[pc]? = some (splitOf greedy (some a) (some b)))
    (hfinds : Finds (moves program string) (at' a x) ms ∨
      Finds (moves program string) (at' b x) ms) :
    Finds (moves program string) (at' pc x) ms := by
  rcases splitOf_eq greedy a b with heq | heq
  · rw [heq] at h
    exact finds_split h hfinds
  · rw [heq] at h
    exact finds_split h hfinds.symm

end Instructions

/-- An instruction that goes on to the next one if it goes on -/
theorem implements_instr {instr : Instr} (goes : ℕ → Prop) [DecidablePred goes] (after : ℕ → ℕ)
    (f : ℕ → Matches → Matches)
    (h : ∀ pc sp, program[pc]? = some instr → moves program string (pc, sp) =
      some (if goes sp then [((pc + 1, after sp), f sp)] else [])) :
    Implements program string (fun _ => [instr]) 1
      fun x y => goes x.1 ∧ y = (after x.1, f x.1 x.2) where
  length := fun _ => rfl
  complete := by
    rintro pc x _ ms hcode ⟨hgoes, rfl⟩ hfinds
    have hmoves := h pc x.1 hcode.cons.1
    rw [if_pos hgoes] at hmoves
    exact finds_of_moves hmoves List.mem_cons_self hfinds
  sound := by
    intro pc n x ms hcode hleads
    obtain ⟨n', rfl, e, he, hleads⟩ := leads_of_moves (h pc x.1 hcode.cons.1) hleads
    split at he
    case isTrue hgoes =>
        rw [List.mem_singleton.mp he] at hleads
        exact ⟨n', Nat.le_succ n', _, ⟨hgoes, rfl⟩, hleads⟩
    case isFalse => exact absurd he List.not_mem_nil

namespace Implements

variable {code code' : ℕ → List Instr} {size size' : ℕ} {R R' : Spot → Spot → Prop}

theorem congr (h : Implements program string code size R) (hR : ∀ x y, R x y ↔ R' x y) :
    Implements program string code size R' where
  length := h.length
  complete := fun hcode hxy => h.complete hcode ((hR _ _).mpr hxy)
  sound := by
    intro pc n x ms hcode hleads
    obtain ⟨n', hn, y, hxy, hleads⟩ := h.sound hcode hleads
    exact ⟨n', hn, y, (hR x y).mp hxy, hleads⟩

theorem consumes (instr : Instr) {P : UInt8 → Prop} (hwaits : (passes instr 0).isSome = true)
    (hP : ∀ c, passes instr c = some true ↔ P c) :
    Implements program string (fun _ => [instr]) 1 (Consumes string P) := by
  refine (implements_instr (fun sp => string.getD sp 0 ≠ Ascii.nul ∧
    passes instr (string.getD sp 0) = some true) (· + 1) (fun _ => id)
    fun pc sp hinstr => moves_waiting hinstr hwaits).congr fun x y => ?_
  rw [Consumes, hP, and_assoc]
  rfl

theorem nil : Implements program string (fun _ => []) 0 (fun x y => y = x) where
  length := fun _ => rfl
  complete := by
    rintro pc x _ ms - rfl hfinds
    exact hfinds
  sound := fun {_ n x _} _ hleads => ⟨n, Nat.le_refl n, x, rfl, hleads⟩

theorem append (h : Implements program string code size R)
    (h' : Implements program string code' size' R') :
    Implements program string (fun pc => code pc ++ code' (pc + size)) (size + size')
      fun x y => ∃ z, R x z ∧ R' z y where
  length := fun pc => by rw [List.length_append, h.length, h'.length]
  complete := by
    rintro pc x y ms hcode ⟨z, hxz, hzy⟩ hfinds
    obtain ⟨hfront, hback⟩ := hcode.append
    rw [h.length] at hback
    rw [← Nat.add_assoc] at hfinds
    exact h.complete hfront hxz (h'.complete hback hzy hfinds)
  sound := by
    intro pc n x ms hcode hleads
    obtain ⟨hfront, hback⟩ := hcode.append
    rw [h.length] at hback
    obtain ⟨n', hn, z, hxz, hleads⟩ := h.sound hfront hleads
    obtain ⟨n'', hn', y, hzy, hleads⟩ := h'.sound hback hleads
    exact ⟨n'', hn'.trans hn, y, ⟨z, hxz, hzy⟩, by rwa [← Nat.add_assoc]⟩

/-- The copies of a code are as many steps. -/
theorem copies (h : Implements program string code size R) : ∀ n,
    Implements program string (Regex.copies code size n) (n * size) (Times R n)
  | 0 => by
      rw [Nat.zero_mul]
      exact nil
  | n + 1 => by
      have happend := h.append (h.copies n)
      rw [Nat.add_comm size, ← Nat.succ_mul] at happend
      exact happend

/-- Copies that can be passed over are at most as many steps. -/
theorem optionals (h : Implements program string code size R) (greedy : Bool) : ∀ n,
    Implements program string (Regex.optionals code size greedy n) (n * (size + 1))
      fun x y => ∃ k ≤ n, Times R k x y
  | 0 => by
      rw [Nat.zero_mul]
      refine nil.congr fun x y => ⟨fun h => ⟨0, le_rfl, h⟩, ?_⟩
      rintro ⟨k, hk, h⟩
      rw [Nat.le_zero.mp hk] at h
      exact h
  | n + 1 => by
      have ih := h.optionals greedy n
      have hend : ∀ pc, pc + 1 + size + n * (size + 1) = pc + (n + 1) * (size + 1) := by
        intro pc
        rw [Nat.succ_mul]
        omega
      refine ⟨fun pc => optionals_length h.length greedy _ _, ?_, ?_⟩
      · rintro pc x y ms hcode ⟨k, hk, hxy⟩ hfinds
        obtain ⟨hsplit, hcode⟩ := hcode.cons
        obtain ⟨hbody, hrest⟩ := hcode.append
        rw [h.length] at hrest
        rw [← hend] at hfinds
        cases k with
        | zero =>
            exact finds_splitOf hsplit (.inr (ih.complete hrest ⟨0, Nat.zero_le n, hxy⟩ hfinds))
        | succ k =>
            obtain ⟨z, hxz, hzy⟩ := hxy
            exact finds_splitOf hsplit (.inl (h.complete hbody hxz
              (ih.complete hrest ⟨k, Nat.le_of_succ_le_succ hk, hzy⟩ hfinds)))
      · intro pc n' x ms hcode hleads
        obtain ⟨hsplit, hcode⟩ := hcode.cons
        obtain ⟨hbody, hrest⟩ := hcode.append
        rw [h.length] at hrest
        rw [← hend]
        obtain ⟨n₁, rfl, hleads | hleads⟩ := leads_splitOf hsplit hleads
        · obtain ⟨n₂, hn₂, z, hxz, hleads⟩ := h.sound hbody hleads
          obtain ⟨n₃, hn₃, y, ⟨k, hk, hzy⟩, hleads⟩ := ih.sound hrest hleads
          exact ⟨n₃, by omega, y, ⟨k + 1, Nat.succ_le_succ hk, z, hxz, hzy⟩, hleads⟩
        · obtain ⟨n₂, hn₂, y, ⟨k, hk, hxy⟩, hleads⟩ := ih.sound hrest hleads
          exact ⟨n₂, by omega, y, ⟨k, Nat.le_succ_of_le hk, hxy⟩, hleads⟩

/-- A loop is any number of steps. Each turn takes an edge at least, so the
induction is on the length of the way. -/
theorem star (h : Implements program string code size R) (greedy : Bool) :
    Implements program string (Regex.star code size greedy) (size + 2)
      fun x y => ∃ k, Times R k x y where
  length := star_length h.length greedy
  complete := by
    rintro pc x y ms hcode ⟨k, hxy⟩ hfinds
    obtain ⟨hsplit, hcode⟩ := hcode.cons
    obtain ⟨hbody, hjump⟩ := hcode.append
    rw [h.length] at hjump
    have hend : pc + (size + 2) = pc + 1 + size + 1 := by omega
    rw [hend] at hfinds
    induction k generalizing x with
    | zero =>
        cases hxy
        exact finds_splitOf hsplit (.inr hfinds)
    | succ k ih =>
        obtain ⟨z, hxz, hzy⟩ := hxy
        exact finds_splitOf hsplit (.inl (h.complete hbody hxz
          (finds_jump hjump.cons.1 (ih hzy))))
  sound := by
    intro pc n x ms hcode hleads
    obtain ⟨hsplit, hcode⟩ := hcode.cons
    obtain ⟨hbody, hjump⟩ := hcode.append
    rw [h.length] at hjump
    have hend : pc + (size + 2) = pc + 1 + size + 1 := by omega
    rw [hend]
    induction n using Nat.strong_induction_on generalizing x with
    | _ n ih =>
        obtain ⟨n₁, rfl, hleads | hleads⟩ := leads_splitOf hsplit hleads
        · obtain ⟨n₂, hn₂, z, hxz, hleads⟩ := h.sound hbody hleads
          obtain ⟨n₃, rfl, hback⟩ := leads_jump hjump.cons.1 hleads
          obtain ⟨n₄, hn₄, y, ⟨k, hzy⟩, hout⟩ := ih n₃ (by omega) hback
          exact ⟨n₄, by omega, y, ⟨k + 1, z, hxz, hzy⟩, hout⟩
        · exact ⟨n₁, Nat.le_succ n₁, x, ⟨0, rfl⟩, hleads⟩

/-- A split behind a copy that leads back to it: once the copy is gone through,
any number of times more -/
theorem again (h : Implements program string code size R) (greedy : Bool) {pc : ℕ}
    (hbody : CodeAt program pc (code pc))
    (hsplit : program[pc + size]? = some (splitOf greedy (some pc) (some (pc + size + 1)))) :
    (∀ {k : ℕ} {x y : Spot} {ms : Matches}, Times R k x y →
      Finds (moves program string) (at' (pc + size + 1) y) ms →
      Finds (moves program string) (at' (pc + size) x) ms) ∧
    (∀ {n : ℕ} {x : Spot} {ms : Matches},
      Leads (moves program string) n (at' (pc + size) x) ms →
      ∃ n' ≤ n, ∃ y, (∃ k, Times R k x y) ∧
        Leads (moves program string) n' (at' (pc + size + 1) y) ms) := by
  constructor
  · intro k x y ms hxy hfinds
    induction k generalizing x with
    | zero =>
        cases hxy
        exact finds_splitOf hsplit (.inr hfinds)
    | succ k ih =>
        obtain ⟨z, hxz, hzy⟩ := hxy
        exact finds_splitOf hsplit (.inl (h.complete hbody hxz (ih hzy)))
  · intro n x ms hleads
    induction n using Nat.strong_induction_on generalizing x with
    | _ n ih =>
        obtain ⟨n₁, rfl, hleads | hleads⟩ := leads_splitOf hsplit hleads
        · obtain ⟨n₂, hn₂, z, hxz, hleads⟩ := h.sound hbody hleads
          obtain ⟨n₃, hn₃, y, ⟨k, hzy⟩, hleads⟩ := ih n₂ (by omega) hleads
          exact ⟨n₃, by omega, y, ⟨k + 1, z, hxz, hzy⟩, hleads⟩
        · exact ⟨n₁, Nat.le_succ n₁, x, ⟨0, rfl⟩, hleads⟩

/-- At least one copy, of which the last one can be gone through again -/
theorem plus (h : Implements program string code size R) (greedy : Bool) (n : ℕ) :
    Implements program string
      (fun pc => Regex.copies code size (n + 1) pc ++
        [splitOf greedy (some (pc + n * size)) (some (pc + (n + 1) * size + 1))])
      ((n + 1) * size + 1) fun x y => ∃ k, n + 1 ≤ k ∧ Times R k x y := by
  have hlast : ∀ n pc, Regex.copies code size (n + 1) pc =
      Regex.copies code size n pc ++ code (pc + n * size) := by
    intro n
    induction n with
    | zero =>
        intro pc
        rw [Regex.copies, Regex.copies, Regex.copies, List.append_nil, List.nil_append,
          Nat.zero_mul, Nat.add_zero]
    | succ n ih =>
        intro pc
        have hpc : pc + size + n * size = pc + (n + 1) * size := by
          rw [Nat.succ_mul]
          omega
        rw [Regex.copies, ih, Regex.copies, List.append_assoc, hpc]
  have hback : ∀ pc, pc + (n + 1) * size = pc + n * size + size := fun pc => by
    rw [Nat.succ_mul, Nat.add_assoc]
  have hcopies := h.copies (n + 1)
  refine ⟨fun pc => by rw [List.length_append, hcopies.length]; rfl, ?_, ?_⟩
  · rintro pc x y ms hcode ⟨k, hk, hxy⟩ hfinds
    obtain ⟨hfront, hsplit⟩ := hcode.append
    obtain ⟨j, rfl⟩ := Nat.exists_eq_add_of_le hk
    obtain ⟨z, hxz, hzy⟩ := times_add.mp hxy
    have hbody := hfront
    rw [hlast] at hbody
    replace hbody := hbody.append.2
    rw [(h.copies n).length] at hbody
    replace hsplit := hsplit.cons.1
    rw [hcopies.length, hback] at hsplit
    rw [← Nat.add_assoc, hback] at hfinds
    have hagain := (h.again greedy hbody hsplit).1 hzy hfinds
    rw [← hback] at hagain
    exact hcopies.complete hfront hxz hagain
  · intro pc n' x ms hcode hleads
    obtain ⟨hfront, hsplit⟩ := hcode.append
    have hbody := hfront
    rw [hlast] at hbody
    replace hbody := hbody.append.2
    rw [(h.copies n).length] at hbody
    replace hsplit := hsplit.cons.1
    rw [hcopies.length, hback] at hsplit
    obtain ⟨n₁, hn₁, z, hxz, hleads⟩ := hcopies.sound hfront hleads
    rw [hback] at hleads
    obtain ⟨n₂, hn₂, y, ⟨k, hzy⟩, hleads⟩ := (h.again greedy hbody hsplit).2 hleads
    rw [← hback] at hleads
    exact ⟨n₂, hn₂.trans hn₁, y, ⟨n + 1 + k, Nat.le_add_right _ k, times_add.mpr ⟨z, hxz, hzy⟩⟩,
      hleads⟩

/-- Two codes of which one is gone through -/
theorem alternation (h : Implements program string code size R)
    (h' : Implements program string code' size' R') :
    Implements program string
      (fun pc => .split (some (pc + 1)) (some (pc + 1 + size + 1)) :: (code (pc + 1) ++
        .jump (some (pc + 1 + size + 1 + size')) :: code' (pc + 1 + size + 1)))
      (1 + size + 1 + size') fun x y => R x y ∨ R' x y := by
  have hend : ∀ pc, pc + (1 + size + 1 + size') = pc + 1 + size + 1 + size' := fun pc => by omega
  refine ⟨fun pc => ?_, ?_, ?_⟩
  · rw [List.length_cons, List.length_append, List.length_cons, h.length, h'.length]
    omega
  · rintro pc x y ms hcode hxy hfinds
    obtain ⟨hsplit, hcode⟩ := hcode.cons
    obtain ⟨hleft, hrest⟩ := hcode.append
    obtain ⟨hjump, hright⟩ := hrest.cons
    rw [h.length] at hjump hright
    rw [hend] at hfinds
    refine finds_split hsplit ?_
    rcases hxy with hxy | hxy
    · exact .inl (h.complete hleft hxy (finds_jump hjump hfinds))
    · exact .inr (h'.complete hright hxy hfinds)
  · intro pc n x ms hcode hleads
    obtain ⟨hsplit, hcode⟩ := hcode.cons
    obtain ⟨hleft, hrest⟩ := hcode.append
    obtain ⟨hjump, hright⟩ := hrest.cons
    rw [h.length] at hjump hright
    rw [hend]
    obtain ⟨n₁, rfl, hleads | hleads⟩ := leads_split hsplit hleads
    · obtain ⟨n₂, hn₂, y, hxy, hleads⟩ := h.sound hleft hleads
      obtain ⟨n₃, rfl, hout⟩ := leads_jump hjump hleads
      exact ⟨n₃, by omega, y, .inl hxy, hout⟩
    · obtain ⟨n₂, hn₂, y, hxy, hleads⟩ := h'.sound hright hleads
      exact ⟨n₂, by omega, y, .inr hxy, hleads⟩

end Implements

theorem implements_save (k : ℕ) : Implements program string (fun _ => [.save k]) 1
    fun x y => y = (x.1, x.2.set k (some x.1)) := by
  refine (implements_instr (fun _ => True) id (fun sp ms => ms.set k (some sp))
    fun pc sp hinstr => ?_).congr fun x y => ?_
  · rw [moves, hinstr, if_pos trivial]
    rfl
  · exact and_iff_right trivial

/-- The bitmap that is compiled holds what is in the class. -/
theorem contains_classOf {text : List UInt8} (h : ∃ rs rest, ClassText true text rs rest)
    (c : UInt8) : cregexCharClassContains (classOf text) (charValue c) = true ↔ InClass text c := by
  obtain ⟨rs, rest, htext⟩ := h
  obtain ⟨klass, hrun, hklass⟩ := compileCharClass_eq htext
  rw [classOf_eq ⟨rs, rest, htext⟩] at hrun
  cases hrun
  exact hklass c

/-- The code of a node is what the node matches. -/
theorem implements : ∀ {n : Node}, n.Sound → ∀ ncaptures,
    Implements program string (n.code · ncaptures) n.size (n.Denotes string ncaptures)
  | .epsilon, _, _ => .nil
  | .character ch, _, _ => .consumes (.character ch) (P := (· = ch)) rfl fun c => by
      rw [passes, Option.some_inj, beq_iff_eq]
  | .anyCharacter, _, _ => by
      refine (implements_instr (fun sp => string.getD sp 0 ≠ Ascii.nul) (· + 1)
        (fun _ => id) fun pc sp hinstr => ?_).congr fun x y => ?_
      · rw [moves_waiting hinstr rfl]
        simp only [passes, Option.some_inj, bne_iff_ne, and_self]
      · rw [Node.Denotes, Consumes, true_and]
        rfl
  | .characterClass text, h, _ =>
      .consumes (.characterClass (classOf text)) (P := InClass text) rfl fun c => by
        rw [passes, Option.some_inj, contains_classOf h]
  | .characterClassNegated text, h, _ =>
      .consumes (.characterClassNegated (classOf text)) (P := (¬InClass text ·)) rfl
        fun c => by
          rw [passes, Option.some_inj, Bool.not_eq_true', ← Bool.not_eq_true, contains_classOf h]
  | .concatenation left right, h, ncaptures =>
      (implements h.1 ncaptures).append (implements h.2 (ncaptures + left.captures))
  | .alternation left right, h, ncaptures =>
      (implements h.1 ncaptures).alternation (implements h.2 (ncaptures + left.captures))
  | .quantifier nmin nmax greedy quantified, h, ncaptures => by
      obtain ⟨hmin, hmax, hsound⟩ := h
      have hbody := implements hsound ncaptures
      have hnmin : ((nmin.toNat : ℕ) : ℤ) = nmin := Int.toNat_of_nonneg hmin
      simp only [Node.code, Node.size]
      by_cases hoptional : nmax > nmin
      · simp only [if_pos hoptional]
        refine ((hbody.copies nmin.toNat).append
          (hbody.optionals greedy (nmax - nmin).toNat)).congr fun x y => ?_
        constructor
        · rintro ⟨z, hxz, k, hk, hzy⟩
          exact ⟨nmin.toNat + k, by omega, .inr (by omega), times_add.mpr ⟨z, hxz, hzy⟩⟩
        · rintro ⟨k, hk, hle, hxy⟩
          obtain ⟨j, rfl⟩ := Nat.exists_eq_add_of_le (show nmin.toNat ≤ k by omega)
          obtain ⟨z, hxz, hzy⟩ := times_add.mp hxy
          exact ⟨z, hxz, j, by omega, hzy⟩
      · simp only [if_neg hoptional]
        by_cases hunbounded : nmax = -1
        · simp only [if_pos hunbounded]
          by_cases hzero : nmin = 0
          · subst hzero
            simp only [if_true, Int.toNat_zero, Nat.zero_mul, Nat.zero_add, Regex.copies,
              List.nil_append]
            refine (hbody.star greedy).congr fun x y => ?_
            constructor
            · rintro ⟨k, hxy⟩
              exact ⟨k, by omega, .inl hunbounded, hxy⟩
            · rintro ⟨k, -, -, hxy⟩
              exact ⟨k, hxy⟩
          · simp only [if_neg hzero]
            obtain ⟨n, hn⟩ : ∃ n, nmin.toNat = n + 1 := ⟨nmin.toNat - 1, by omega⟩
            simp only [hn, Nat.add_sub_cancel]
            refine (hbody.plus greedy n).congr fun x y => ?_
            constructor
            · rintro ⟨k, hk, hxy⟩
              exact ⟨k, by omega, .inl hunbounded, hxy⟩
            · rintro ⟨k, hk, -, hxy⟩
              exact ⟨k, by omega, hxy⟩
        · simp only [if_neg hunbounded, List.append_nil, Nat.add_zero]
          refine (hbody.copies nmin.toNat).congr fun x y => ?_
          constructor
          · intro hxy
            exact ⟨nmin.toNat, hnmin.ge, .inr (by omega), hxy⟩
          · rintro ⟨k, hk, hle, hxy⟩
            rwa [show nmin.toNat = k by omega]
  | .anchorBegin, _, _ => by
      refine implements_instr (fun sp => sp = 0) id (fun _ => id) fun pc sp hinstr => ?_
      rw [moves, hinstr]
      rfl
  | .anchorEnd, _, _ => by
      refine implements_instr (fun sp => string.getD sp 0 = Ascii.nul) id (fun _ => id)
        fun pc sp hinstr => ?_
      rw [moves, hinstr]
      rfl
  | .capture captured, h, ncaptures => by
      have hcode := ((implements_save (ncaptures * 2)).append
        ((implements (n := captured) h (ncaptures + 1)).append
          (implements_save (ncaptures * 2 + 1))))
      rw [← Nat.add_assoc] at hcode
      refine hcode.congr fun x y => ?_
      constructor
      · rintro ⟨_, rfl, z, hz, rfl⟩
        exact ⟨z, hz, rfl⟩
      · rintro ⟨z, hz, rfl⟩
        exact ⟨_, rfl, z, hz, rfl⟩

/-! ## Where the captures are -/

/-- From a spot on: what is captured newly lies between the two spots, and is not
one of the first `n` captures. -/
structure Grows (n : ℕ) (x y : Spot) : Prop where
  le : x.1 ≤ y.1
  length : y.2.length = x.2.length
  frame : ∀ k < n * 2, y.2[k]? = x.2[k]?
  inside : ∀ (k p : ℕ), y.2[k]? = some (some p) → x.2[k]? = some (some p) ∨ (x.1 ≤ p ∧ p ≤ y.1)

namespace Grows

variable {n : ℕ} {x y z : Spot}

theorem refl (n : ℕ) (x : Spot) : Grows n x x := ⟨le_rfl, rfl, fun _ _ => rfl, fun _ _ => .inl⟩

theorem trans (h : Grows n x y) (h' : Grows n y z) : Grows n x z where
  le := h.le.trans h'.le
  length := h'.length.trans h.length
  frame := fun k hk => (h'.frame k hk).trans (h.frame k hk)
  inside := by
    intro k p hp
    rcases h'.inside k p hp with hp | ⟨hyp, hpz⟩
    · exact (h.inside k p hp).imp_right fun hp => ⟨hp.1, hp.2.trans h'.le⟩
    · exact .inr ⟨h.le.trans hyp, hpz⟩

theorem mono {n' : ℕ} (h : Grows n x y) (hn : n' ≤ n) : Grows n' x y :=
  { h with frame := fun k hk => h.frame k (hk.trans_le (Nat.mul_le_mul_right 2 hn)) }

theorem consumes {string : List UInt8} {P : UInt8 → Prop} (h : Consumes string P x y) :
    Grows n x y := by
  obtain ⟨-, -, rfl⟩ := h
  exact ⟨Nat.le_succ _, rfl, fun _ _ => rfl, fun _ _ => .inl⟩

/-- A capture that is not one of the first ones is set to where one is. -/
theorem set {k : ℕ} (hk : n * 2 ≤ k) : Grows n x (x.1, x.2.set k (some x.1)) where
  le := le_rfl
  length := List.length_set
  frame := fun j hj => List.getElem?_set_ne (by omega)
  inside := by
    intro j p hp
    rw [List.getElem?_set] at hp
    split at hp
    · split at hp
      · cases hp
        exact .inr ⟨le_rfl, le_rfl⟩
      · cases hp
    · exact .inl hp

theorem times {R : Spot → Spot → Prop} (h : ∀ x y, R x y → Grows n x y) :
    ∀ {k : ℕ} {x y : Spot}, Times R k x y → Grows n x y
  | 0, x, _, rfl => refl n x
  | _ + 1, x, _, ⟨z, hxz, hzy⟩ => (h x z hxz).trans (times h hzy)

end Grows

theorem Node.Denotes.grows : ∀ {n : Node} {ncaptures : ℕ} {x y : Spot},
    n.Denotes string ncaptures x y → Grows ncaptures x y
  | .epsilon, _, x, _, rfl => .refl _ x
  | .character _, _, _, _, h => .consumes h
  | .anyCharacter, _, _, _, h => .consumes h
  | .characterClass _, _, _, _, h => .consumes h
  | .characterClassNegated _, _, _, _, h => .consumes h
  | .concatenation left right, _, _, _, ⟨_, hleft, hright⟩ =>
      (grows (n := left) hleft).trans
        ((grows (n := right) hright).mono (Nat.le_add_right _ _))
  | .alternation left right, _, _, _, h => by
      rcases h with h | h
      · exact grows (n := left) h
      · exact (grows (n := right) h).mono (Nat.le_add_right _ _)
  | .quantifier _ _ _ quantified, _, _, _, ⟨_, _, _, h⟩ =>
      .times (fun _ _ h => grows (n := quantified) h) h
  | .anchorBegin, _, x, _, ⟨_, rfl⟩ => .refl _ x
  | .anchorEnd, _, x, _, ⟨_, rfl⟩ => .refl _ x
  | .capture captured, n, _, _, ⟨_, h, rfl⟩ =>
      ((Grows.set le_rfl).trans ((grows (n := captured) h).mono (Nat.le_succ n))).trans
        (Grows.set (Nat.le_succ _))

end Nawam.Regex
