import Mathlib.Data.List.Basic
import Mathlib.Data.Nat.Basic
import Mathlib.Data.List.Pairwise

/-!
# Extents

Pieces of a line of bytes or sectors, each an offset and a length, laid out
one behind the other between two bounds. Room may be left between them.

Pieces that do not overlap can be inserted in any order into a list that is
kept in order: what comes out is the one list of them that is in order. Pieces
that adjoin each other hold together what stands between the bounds.
-/

namespace Nawam

abbrev Extent : Type := ℕ × ℕ

namespace Extent

abbrev stop (e : Extent) : ℕ := e.1 + e.2

/-- The extents stand in this order, each behind the one before it, from
`start` up to `stop`. -/
def LaidOut : ℕ → List Extent → ℕ → Prop
  | start, [], stop => start ≤ stop
  | start, e :: es, stop => start ≤ e.1 ∧ LaidOut e.stop es stop

namespace LaidOut

variable {start mid stop : ℕ} {es fs : List Extent}

theorem append : ∀ {es : List Extent} {start : ℕ}, LaidOut start es mid →
    LaidOut mid fs stop → LaidOut start (es ++ fs) stop
  | [], _, h, h' => by
      cases fs with
      | nil => exact le_trans h h'
      | cons f fs => exact ⟨le_trans h h'.1, h'.2⟩
  | _ :: _, _, h, h' => ⟨h.1, append h.2 h'⟩

theorem le : ∀ {es : List Extent} {start : ℕ}, LaidOut start es stop →
    start ≤ stop
  | [], _, h => h
  | e :: _, _, h => by
      calc _ ≤ e.1 := h.1
        _ ≤ e.stop := Nat.le_add_right ..
        _ ≤ stop := le h.2

theorem weaken {start' : ℕ} (hstart : start' ≤ start) :
    ∀ {es : List Extent}, LaidOut start es stop → LaidOut start' es stop
  | [], h => le_trans hstart h
  | _ :: _, h => ⟨le_trans hstart h.1, h.2⟩

theorem bounds : ∀ {es : List Extent} {start : ℕ}, LaidOut start es stop →
    ∀ e ∈ es, start ≤ e.1 ∧ e.stop ≤ stop
  | f :: es, start, h, e, he => by
      rcases List.mem_cons.mp he with rfl | he
      · exact ⟨h.1, le h.2⟩
      · obtain ⟨hstart, hstop⟩ := bounds h.2 e he
        have hf : f.1 ≤ f.stop := Nat.le_add_right ..
        exact ⟨le_trans h.1 (le_trans hf hstart), hstop⟩

/-- Each extent ends before the next ones start. -/
theorem pairwise : ∀ {es : List Extent} {start : ℕ}, LaidOut start es stop →
    es.Pairwise fun e f => e.stop ≤ f.1
  | [], _, _ => List.Pairwise.nil
  | _ :: _, _, h => by
      apply List.Pairwise.cons
      · exact fun f hf => (bounds h.2 f hf).1
      · exact pairwise h.2

end LaidOut

/-! ## In order -/

/-- The extent ends before the other one starts. -/
def Before (e f : Extent) : Prop := e.stop ≤ f.1

/-- They do not overlap. -/
def Apart (e f : Extent) : Prop := Before e f ∨ Before f e

abbrev Ordered (es : List Extent) : Prop := es.Pairwise Before

theorem Apart.symm {e f : Extent} (h : Apart e f) : Apart f e := Or.symm h

/-- The new extent behind those that end before it; `none` where it overlaps. -/
def insert (x : Extent) : List Extent → Option (List Extent)
  | [] => some [x]
  | e :: es =>
      if e.stop ≤ x.1 then (insert x es).map (e :: ·)
      else if x.stop ≤ e.1 then some (x :: e :: es)
      else none

theorem insert_ordered {x : Extent} : ∀ {es : List Extent}, Ordered es →
    (∀ e ∈ es, Apart e x) →
    ∃ fs, insert x es = some fs ∧ fs.Perm (x :: es) ∧ Ordered fs
  | [], _, _ => ⟨[x], rfl, List.Perm.refl _, List.pairwise_singleton _ _⟩
  | e :: es, hes, hx => by
      obtain ⟨he, htail⟩ := List.pairwise_cons.mp hes
      obtain ⟨hex, hrest⟩ := List.forall_mem_cons.mp hx
      rw [insert]
      split
      case isTrue hfront =>
          obtain ⟨fs, hfs, hperm, hordered⟩ := insert_ordered htail hrest
          refine ⟨e :: fs, by rw [hfs]; rfl, ?_, ?_⟩
          · exact (hperm.cons e).trans (List.Perm.swap x e es)
          · refine List.pairwise_cons.mpr ⟨fun f hf => ?_, hordered⟩
            rcases List.mem_cons.mp (hperm.mem_iff.mp hf) with rfl | hf
            · exact hfront
            · exact he f hf
      case isFalse hfront =>
          have hback : x.stop ≤ e.1 := hex.resolve_left hfront
          refine ⟨x :: e :: es, if_pos hback, List.Perm.refl _, ?_⟩
          refine List.pairwise_cons.mpr ⟨fun f hf => ?_, hes⟩
          rcases List.mem_cons.mp hf with rfl | hf
          · exact hback
          · calc x.stop ≤ e.1 := hback
              _ ≤ e.stop := Nat.le_add_right ..
              _ ≤ f.1 := he f hf

theorem Ordered.eq_of_perm {es fs : List Extent} (hes : Ordered es)
    (hfs : Ordered fs) (h : es.Perm fs) : es = fs := by
  refine h.eq_of_pairwise (fun e f _ _ hef hfe => ?_) hes hfs
  unfold Before stop at hef hfe
  exact Prod.ext (by omega) (by omega)

/-! ## What stands in them -/

section

variable {α : Type}

def slice (bs : List α) (e : Extent) : List α := (bs.drop e.1).take e.2

def without (bs : List α) (e : Extent) : List α := bs.take e.1 ++ bs.drop e.stop

/-- Each extent starts where the one before it ends. -/
def Adjoins : ℕ → List Extent → ℕ → Prop
  | start, [], stop => start = stop
  | start, e :: es, stop => e.1 = start ∧ Adjoins e.stop es stop

theorem Adjoins.laidOut : ∀ {es : List Extent} {start stop : ℕ},
    Adjoins start es stop → LaidOut start es stop
  | [], _, _, h => le_of_eq h
  | _ :: _, _, _, h => ⟨le_of_eq h.1.symm, h.2.laidOut⟩

theorem Adjoins.append : ∀ {es fs : List Extent} {start mid stop : ℕ},
    Adjoins start es mid → Adjoins mid fs stop → Adjoins start (es ++ fs) stop
  | [], _, _, _, _, h, h' => by
      cases h
      exact h'
  | _ :: _, _, _, _, _, h, h' => ⟨h.1, h.2.append h'⟩

theorem slice_append (bs : List α) {start mid stop : ℕ} (h : start ≤ mid)
    (h' : mid ≤ stop) : slice bs (start, mid - start) ++ slice bs (mid, stop - mid)
      = slice bs (start, stop - start) := by
  have hlen : stop - start = (mid - start) + (stop - mid) := by omega
  have hmid : mid = start + (mid - start) := by omega
  simp only [slice]
  rw [hlen, List.take_add, List.drop_drop, ← hmid]

theorem Adjoins.slices (bs : List α) : ∀ {es : List Extent} {start stop : ℕ},
    Adjoins start es stop → es.flatMap (slice bs) = slice bs (start, stop - start)
  | [], start, stop, h => by
      cases h
      simp [slice]
  | e :: es, start, stop, ⟨hstart, h⟩ => by
      subst hstart
      have hlen : e.stop - e.1 = e.2 := by
        unfold Extent.stop
        omega
      have ih := h.slices bs
      have happend := slice_append bs (Nat.le_add_right e.1 e.2) h.laidOut.le
      rw [hlen] at happend
      rw [List.flatMap_cons, ih]
      exact happend

theorem slice_length {bs : List α} {e : Extent} (h : e.stop ≤ bs.length) :
    (slice bs e).length = e.2 := by
  unfold Extent.stop at h
  rw [slice, List.length_take, List.length_drop]
  omega

/-- Something is removed from behind what was removed before. -/
theorem without_append (bs tail : List α) {e : Extent} (h : e.stop ≤ bs.length) :
    without (bs ++ tail) e = without bs e ++ tail := by
  have hstart : e.1 ≤ bs.length := le_trans (Nat.le_add_right ..) h
  rw [without, List.take_append_of_le_length hstart, List.drop_append_of_le_length h,
    without, List.append_assoc]

end

end Extent

end Nawam
