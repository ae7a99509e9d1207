import Mathlib.Data.Fintype.Card
import Mathlib.Logic.Relation
import Mathlib.Order.Filter.AtTopBot.Basic
import Mathlib.Order.Filter.Finite

/-!
# Recursion without a bound

A function that calls itself comes to its end exactly if there is no infinite
chain of nested calls from the first one (`exists_ends_iff_acc`). Where the calls
that can be reached are finitely many, such a chain would have to come back to a
call that is still being made (`acc_iff_no_cycle`). A function that makes its calls
one after the other, in a state that they change, ends if each of them does
(`foldlM_ends`) and otherwise does not (`foldlM_hangs`).
-/

namespace Nawam

open Relation

variable {σ : Type} {calls : σ → σ → Prop} {s : σ}

/-- The call leads to one that is nested in itself. -/
def LeadsToCycle (calls : σ → σ → Prop) (s : σ) : Prop :=
  ∃ t, ReflTransGen calls s t ∧ TransGen calls t t

theorem Acc.of_leads {t : σ} (h : Acc (flip calls) s) (hleads : ReflTransGen calls s t) :
    Acc (flip calls) t := by
  induction hleads with
  | refl => exact h
  | tail _ hcall ih => exact ih.inv hcall

theorem not_cycle_of_acc (h : Acc (flip calls) s) : ¬TransGen calls s s := by
  intro hcycle
  have hacc : Acc (TransGen (flip calls)) s := h.transGen
  have hflip : TransGen (flip calls) s s := transGen_swap.mpr hcycle
  clear h hcycle
  induction hacc with
  | intro t _ ih => exact ih t hflip hflip

/-- Finitely many calls without a cycle nest finitely deep. -/
theorem acc_iff_no_cycle (hfinite : {t | ReflTransGen calls s t}.Finite) :
    Acc (flip calls) s ↔ ¬LeadsToCycle calls s := by
  constructor
  · rintro hacc ⟨t, hleads, hcycle⟩
    exact not_cycle_of_acc (Acc.of_leads hacc hleads) hcycle
  · intro hcycle
    let reached : Type := {t // ReflTransGen calls s t}
    let deeper (t u : reached) : Prop := TransGen calls u.1 t.1
    have : Finite reached := hfinite
    have : IsTrans reached deeper := ⟨fun _ _ _ htu huv => huv.trans htu⟩
    have : Std.Irrefl deeper := ⟨fun t ht => hcycle ⟨t.1, t.2, ht⟩⟩
    have hwf : WellFounded deeper := Finite.wellFounded_of_trans_of_irrefl deeper
    have hall : ∀ t : reached, Acc (flip calls) t.1 := by
      intro t
      induction t using hwf.induction with
      | _ t ih =>
          refine ⟨_, fun u hcall => ?_⟩
          exact ih ⟨u, t.2.tail hcall⟩ (.single hcall)
    exact hall ⟨s, .refl⟩

/-! ## Calls that are nested so deep -/

section

variable {ends : ℕ → σ → Prop}

/-- A call ends if those that it makes do, and they end at a smaller depth. -/
theorem exists_ends_iff_acc (hzero : ∀ s, ¬ends 0 s)
    (hcall : ∀ n s t, ends (n + 1) s → calls s t → ends n t)
    (hreturn : ∀ s, (∀ t, calls s t → ∃ n, ends n t) → ∃ n, ends n s) :
    (∃ n, ends n s) ↔ Acc (flip calls) s := by
  constructor
  · rintro ⟨n, hends⟩
    induction n generalizing s with
    | zero => exact absurd hends (hzero s)
    | succ n ih => exact ⟨_, fun t ht => ih (hcall n s t hends ht)⟩
  · intro hacc
    induction hacc with
    | intro s _ ih => exact hreturn s fun t ht => ih t ht

/-- Finitely many calls that end do so at a common depth. -/
theorem exists_common_depth {calls : Set σ} (hfinite : calls.Finite)
    (hmono : ∀ n t, ends n t → ends (n + 1) t) (h : ∀ t ∈ calls, ∃ n, ends n t) :
    ∃ n, ∀ t ∈ calls, ends n t := by
  have hall : ∀ t ∈ calls, ∀ᶠ n in Filter.atTop, ends n t := by
    intro t ht
    obtain ⟨n, hn⟩ := h t ht
    exact Filter.eventually_atTop.mpr
      ⟨n, fun m hm => Nat.le_induction hn (fun k _ hk => hmono k t hk) m hm⟩
  exact ((Filter.eventually_all_finite hfinite).mpr hall).exists

end

/-! ## One call after the other -/

section

variable {α β : Type} (I : σ → Prop) (f : σ → α → Option β)

/-- The call ends, in every state that the invariant allows. -/
def Returns (result : β → Prop) (a : α) : Prop :=
  ∀ s, I s → ∃ b, f s a = some b ∧ result b

/-- The call does not end, in any state that the invariant allows. -/
def Hangs (a : α) : Prop := ∀ s, I s → f s a = none

end

section

variable {α : Type} {I : σ → Prop} {f : σ → α → Option σ}

theorem foldlM_ends : ∀ {l : List α}, (∀ a ∈ l, Returns I f I a) → ∀ s, I s →
    ∃ s', l.foldlM f s = some s' ∧ I s'
  | [], _, s, hs => ⟨s, rfl, hs⟩
  | a :: l, h, s, hs => by
      obtain ⟨s', hstep, hs'⟩ := h a List.mem_cons_self s hs
      rw [List.foldlM_cons, hstep]
      exact foldlM_ends (fun b hb => h b (List.mem_cons_of_mem a hb)) s' hs'

theorem foldlM_hangs : ∀ {l : List α}, (∀ a ∈ l, Returns I f I a ∨ Hangs I f a) →
    (∃ a ∈ l, Hangs I f a) → ∀ s, I s → l.foldlM f s = none
  | [], _, ⟨_, ha, _⟩, _, _ => absurd ha List.not_mem_nil
  | a :: l, h, hbad, s, hs => by
      rw [List.foldlM_cons]
      by_cases ha : Hangs I f a
      · rw [ha s hs]
        rfl
      · obtain ⟨s', hstep, hs'⟩ := (h a List.mem_cons_self).resolve_right ha s hs
        rw [hstep]
        refine foldlM_hangs (fun b hb => h b (List.mem_cons_of_mem a hb)) ?_ s' hs'
        obtain ⟨b, hb, hhangs⟩ := hbad
        rcases List.mem_cons.mp hb with rfl | hb
        · exact absurd hhangs ha
        · exact ⟨b, hb, hhangs⟩

end

end Nawam
