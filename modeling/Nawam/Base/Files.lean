import Mathlib.Logic.Function.Basic

/-!
# Files

A file system as a map from paths to contents, with the operations the
programs above use. Whether an operation succeeds is the caller's business;
here is what it does when it does.
-/

namespace Nawam

/-- The files there are; `none` is a path without a file. -/
abbrev Files (P α : Type) : Type := P → Option α

namespace Files

variable {P α : Type} [DecidableEq P]

def write (fs : Files P α) (path : P) (contents : α) : Files P α :=
  Function.update fs path (some contents)

def delete (fs : Files P α) (path : P) : Files P α :=
  Function.update fs path none

/-- A move that replaces what is at the target. -/
def replace (fs : Files P α) (src dst : P) : Files P α :=
  match fs src with
  | some contents => (fs.delete src).write dst contents
  | none => fs

@[simp] theorem write_same (fs : Files P α) (path : P) (contents : α) :
    fs.write path contents path = some contents :=
  Function.update_self ..

@[simp] theorem delete_same (fs : Files P α) (path : P) :
    fs.delete path path = none :=
  Function.update_self ..

theorem write_other {fs : Files P α} {path q : P} (h : q ≠ path)
    (contents : α) : fs.write path contents q = fs q :=
  Function.update_of_ne h ..

theorem delete_other {fs : Files P α} {path q : P} (h : q ≠ path) :
    fs.delete path q = fs q :=
  Function.update_of_ne h ..

theorem replace_of_some {fs : Files P α} {src : P} {contents : α} (dst : P)
    (h : fs src = some contents) :
    fs.replace src dst = (fs.delete src).write dst contents := by
  simp [replace, h]

theorem replace_replace {fs : Files P α} {src dst : P} {contents : α}
    (hne : src ≠ dst) (hsrc : fs src = some contents) (hdst : fs dst = none) :
    (fs.replace src dst).replace dst src = fs := by
  rw [replace_of_some dst hsrc, replace_of_some src (write_same ..)]
  funext q
  by_cases hq : q = src
  · subst hq
    rw [write_same, hsrc]
  · rw [write_other hq]
    by_cases hqd : q = dst
    · subst hqd
      rw [delete_same, hdst]
    · rw [delete_other hqd, write_other hqd, delete_other hq]

/-- A file that is created and deleted again leaves nothing behind. -/
theorem delete_of_none {fs gs : Files P α} {path : P} (hnone : fs path = none)
    (h : ∀ q, q ≠ path → gs q = fs q) : gs.delete path = fs := by
  funext q
  by_cases hq : q = path
  · subst hq
    rw [delete_same, hnone]
  · rw [delete_other hq, h q hq]

end Files

end Nawam
