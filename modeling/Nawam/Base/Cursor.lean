import Nawam.Base.Bytes
import Mathlib.Tactic.Common

/-!
# Loops over what a cursor reads

A cursor has a position, and reading gives an element and the position behind
it, or nothing at the end. `Yields` says which elements there are from a
position on. A loop that reads on as long as its body wants to (`walk`) does
on the cursor what the same loop does on the list of the elements that are
ahead (`walkList`); so what such a loop comes to can be proved about lists, by
recursion and with invariants, and holds wherever the elements are read from.
-/

namespace Nawam

variable {α β γ σ : Type}

/-- The cursor reads these elements, and then comes to its end. -/
inductive Yields (next : σ → Option (α × σ)) : σ → List α → Prop
  | nil {s : σ} : next s = none → Yields next s []
  | cons {s s' : σ} {a : α} {as : List α} :
      next s = some (a, s') → Yields next s' as → Yields next s (a :: as)

/-- What one turn of a loop decides. -/
inductive Turn (β : Type) where
  /-- to leave the loop -/
  | leave
  /-- to return a code from within it -/
  | stop (code : Int32)
  /-- to read on -/
  | on (b : β)

/-- What a walk comes to: a code that it returns, or a result and the position
where it stands. -/
inductive Reached (β σ : Type) where
  | stop (code : Int32)
  | here (b : β) (s : σ)

/-- What comes next, unless a code is returned. -/
def Reached.bind (x : C (Reached β σ)) (f : β → σ → C (Reached γ σ)) :
    C (Reached γ σ) :=
  match x with
  | .error e => .error e
  | .ok (.stop code) => .ok (.stop code)
  | .ok (.here b s) => f b s

/-- The loop, with the element it has read. The end of the cursor is reported
by -1. -/
def walk (next : σ → Option (α × σ)) (body : β → α → C (Turn β)) :
    ℕ → β → α → σ → C (Reached (β × α) σ)
  | 0, _, _, _ => .error .outOfFuel
  | n + 1, b, a, s =>
      match body b a with
      | .error e => .error e
      | .ok .leave => .ok (.here (b, a) s)
      | .ok (.stop code) => .ok (.stop code)
      | .ok (.on b) =>
          match next s with
          | none => .ok (.stop (-1))
          | some (a, s) => walk next body n b a s

def walkList (body : β → α → C (Turn β)) :
    β → List α → C (Reached (β × α) (List α))
  | _, [] => .ok (.stop (-1))
  | b, a :: as =>
      match body b a with
      | .error e => .error e
      | .ok .leave => .ok (.here (b, a) as)
      | .ok (.stop code) => .ok (.stop code)
      | .ok (.on b) => walkList body b as

/-- Positions and what is ahead of them: reading takes the first element. -/
structure IsAhead (next : σ → Option (α × σ)) (R : σ → List α → Prop) : Prop where
  nil : ∀ s, R s [] → next s = none
  cons : ∀ s a as, R s (a :: as) → ∃ s', next s = some (a, s') ∧ R s' as

/-- The same result, and what is ahead of the cursor is what is left of the list. -/
def Mirrors (R : σ → List α → Prop) (x : C (Reached β σ))
    (y : C (Reached β (List α))) : Prop :=
  match y with
  | .error e => x = .error e
  | .ok (.stop code) => x = .ok (.stop code)
  | .ok (.here b as) => ∃ s, x = .ok (.here b s) ∧ R s as

variable {next : σ → Option (α × σ)} {R : σ → List α → Prop} {body : β → α → C (Turn β)}

/-- **A loop over a cursor does what it does on the elements.** -/
theorem IsAhead.walk_mirrors (hR : IsAhead next R) :
    ∀ {as : List α} {n : ℕ} {b : β} {a : α} {s : σ}, R s as → as.length < n →
    Mirrors R (walk next body n b a s) (walkList body b (a :: as))
  | as, n + 1, b, a, s, h, hn => by
      rw [walk, walkList]
      cases body b a with
      | error e => rfl
      | ok turn =>
          cases turn with
          | leave => exact ⟨s, rfl, h⟩
          | stop code => rfl
          | on b =>
              cases as with
              | nil =>
                  simp only [hR.nil s h]
                  rfl
              | cons a' as =>
                  obtain ⟨s', hnext, hrest⟩ := hR.cons s a' as h
                  simp only [hnext]
                  exact hR.walk_mirrors hrest (Nat.lt_of_succ_lt_succ hn)

/-- Steps that do the same, one after the other. -/
theorem Mirrors.bind {x : C (Reached β σ)} {y : C (Reached β (List α))}
    {f : β → σ → C (Reached γ σ)} {g : β → List α → C (Reached γ (List α))}
    (h : Mirrors R x y)
    (hfg : ∀ b s as, y = .ok (.here b as) → R s as → Mirrors R (f b s) (g b as)) :
    Mirrors R (Reached.bind x f) (Reached.bind y g) := by
  match y, h, hfg with
  | .error e, h, _ =>
      rw [show x = .error e from h]
      rfl
  | .ok (.stop code), h, _ =>
      rw [show x = .ok (.stop code) from h]
      rfl
  | .ok (.here b as), h, hfg =>
      obtain ⟨s, rfl, hs⟩ := h
      exact hfg b s as rfl hs

/-! ## Loops on lists -/

/-- **An invariant of the turns holds where the loop is left.** -/
theorem walkList_invariant {I : β → Prop}
    (hstep : ∀ b a b', I b → body b a = .ok (.on b') → I b') :
    ∀ {as rest : List α} {b b' : β} {a : α}, I b →
      walkList body b as = .ok (.here (b', a) rest) → I b'
  | [], _, _, _, _, _, h => by cases h
  | a :: as, rest, b, b', a', hb, h => by
      rw [walkList] at h
      cases hturn : body b a with
      | error e =>
          rw [hturn] at h
          cases h
      | ok turn =>
          rw [hturn] at h
          cases turn with
          | leave =>
              cases h
              exact hb
          | stop code => cases h
          | on b'' => exact walkList_invariant hstep (hstep b a b'' hb hturn) h

/-- Where the loop is left an element has been taken. -/
theorem walkList_length : ∀ {as rest : List α} {b b' : β} {a : α},
    walkList body b as = .ok (.here (b', a) rest) → rest.length < as.length
  | [], _, _, _, _, h => by cases h
  | a :: as, rest, b, b', a', h => by
      rw [walkList] at h
      cases hturn : body b a with
      | error e =>
          rw [hturn] at h
          cases h
      | ok turn =>
          rw [hturn] at h
          cases turn with
          | leave =>
              cases h
              exact Nat.lt_succ_self _
          | stop code => cases h
          | on b'' => exact (walkList_length h).trans (Nat.lt_succ_self _)

theorem Reached.bind_eq_here {x : C (Reached β σ)} {f : β → σ → C (Reached γ σ)}
    {c : γ} {s' : σ} (h : Reached.bind x f = .ok (.here c s')) :
    ∃ b s, x = .ok (.here b s) ∧ f b s = .ok (.here c s') := by
  match x, h with
  | .ok (.here b s), h => exact ⟨b, s, rfl, h⟩

/-! ## What a loop has read -/

/-- The cursor reads these elements on the way from one position to another. -/
inductive ReadsTo (next : σ → Option (α × σ)) : σ → List α → σ → Prop
  | nil (s : σ) : ReadsTo next s [] s
  | cons {s s' s'' : σ} {a : α} {as : List α} :
      next s = some (a, s') → ReadsTo next s' as s'' → ReadsTo next s (a :: as) s''

namespace ReadsTo

theorem append {s s' s'' : σ} {as bs : List α} (h : ReadsTo next s as s')
    (h' : ReadsTo next s' bs s'') : ReadsTo next s (as ++ bs) s'' := by
  induction h with
  | nil => exact h'
  | cons hnext _ ih => exact .cons hnext (ih h')

theorem of_append {as bs : List α} : ∀ {s s'' : σ}, ReadsTo next s (as ++ bs) s'' →
    ∃ s', ReadsTo next s as s' ∧ ReadsTo next s' bs s'' := by
  induction as with
  | nil => exact fun h => ⟨_, .nil _, h⟩
  | cons a as ih =>
      rintro s s'' (_ | ⟨hnext, hrest⟩)
      obtain ⟨s', has, hbs⟩ := ih hrest
      exact ⟨s', .cons hnext has, hbs⟩

end ReadsTo

/-- **A loop that has faulted** has read the elements on which the same loop
faults. -/
theorem readsTo_of_walk_error {e : Fault} (he : e ≠ .outOfFuel) :
    ∀ {n : ℕ} {b : β} {a : α} {s : σ}, walk next body n b a s = .error e →
      ∃ as s', ReadsTo next s as s' ∧ walkList body b (a :: as) = .error e := by
  intro n
  induction n with
  | zero => exact fun h => absurd (Except.error.inj h).symm he
  | succ n ih =>
      intro b a s h
      rw [walk] at h
      cases hturn : body b a with
      | error e' =>
          rw [hturn] at h
          cases h
          exact ⟨[], s, .nil s, by rw [walkList, hturn]⟩
      | ok turn =>
          rw [hturn] at h
          cases turn with
          | leave => cases h
          | stop code => cases h
          | on b' =>
              cases hnext : next s with
              | none =>
                  simp only [hnext] at h
                  cases h
              | some read =>
                  simp only [hnext] at h
                  obtain ⟨as, s', hreads, hlist⟩ := ih h
                  refine ⟨read.1 :: as, s', .cons hnext hreads, ?_⟩
                  rw [walkList, hturn]
                  exact hlist

/-- **A loop that was left** has read the elements on which the same loop comes
to the last one. -/
theorem readsTo_of_walk_here : ∀ {n : ℕ} {b : β} {a : α} {s : σ} {r : β × α} {s' : σ},
    walk next body n b a s = .ok (.here r s') →
      ∃ as, ReadsTo next s as s' ∧ walkList body b (a :: as) = .ok (.here r []) := by
  intro n
  induction n with
  | zero => exact fun h => nomatch h
  | succ n ih =>
      intro b a s r s' h
      rw [walk] at h
      cases hturn : body b a with
      | error e' =>
          rw [hturn] at h
          cases h
      | ok turn =>
          rw [hturn] at h
          cases turn with
          | leave =>
              cases h
              exact ⟨[], .nil s, by rw [walkList, hturn]⟩
          | stop code => cases h
          | on b' =>
              cases hnext : next s with
              | none =>
                  simp only [hnext] at h
                  cases h
              | some read =>
                  simp only [hnext] at h
                  obtain ⟨as, hreads, hlist⟩ := ih h
                  refine ⟨read.1 :: as, .cons hnext hreads, ?_⟩
                  rw [walkList, hturn]
                  exact hlist

/-- The elements that were read decide what a loop comes to, unless it is to
read on behind them. -/
theorem walk_of_readsTo {as : List α} : ∀ {s s' : σ} {b : β} {a : α} {n : ℕ},
    ReadsTo next s as s' → as.length < n →
    (∀ e, walkList body b (a :: as) = .error e → walk next body n b a s = .error e) ∧
      ∀ r, walkList body b (a :: as) = .ok (.here r []) →
        walk next body n b a s = .ok (.here r s') := by
  induction as with
  | nil =>
      rintro s s' b a (_ | n) hreads hn
      · exact absurd hn (Nat.not_lt_zero _)
      cases hreads
      rw [walk, walkList]
      cases body b a with
      | error e' => exact ⟨fun e h => by cases h; rfl, fun r h => nomatch h⟩
      | ok turn =>
          cases turn with
          | leave => exact ⟨fun e h => (nomatch h), fun r h => by cases h; rfl⟩
          | stop code => exact ⟨fun e h => (nomatch h), fun r h => nomatch h⟩
          | on b' => exact ⟨fun e h => (nomatch h), fun r h => nomatch h⟩
  | cons a' as ih =>
      rintro s s' b a (_ | n) hreads hn
      · exact absurd hn (Nat.not_lt_zero _)
      obtain _ | ⟨hnext, hrest⟩ := hreads
      rw [walk, walkList]
      cases body b a with
      | error e' => exact ⟨fun e h => by cases h; rfl, fun r h => nomatch h⟩
      | ok turn =>
          cases turn with
          | leave => exact ⟨fun e h => (nomatch h), fun r h => nomatch h⟩
          | stop code => exact ⟨fun e h => (nomatch h), fun r h => nomatch h⟩
          | on b' =>
              simp only [hnext]
              exact ih hrest (Nat.lt_of_succ_lt_succ hn)

theorem Reached.bind_eq_error {x : C (Reached β σ)} {f : β → σ → C (Reached γ σ)} {e : Fault} :
    Reached.bind x f = .error e ↔
      x = .error e ∨ ∃ b s, x = .ok (.here b s) ∧ f b s = .error e := by
  match x with
  | .error e' => simp [Reached.bind]
  | .ok (.stop code) => simp [Reached.bind]
  | .ok (.here b s) => simp [Reached.bind]

end Nawam
