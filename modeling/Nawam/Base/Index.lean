import Mathlib.Algebra.GroupWithZero.Nat

/-!
# Index types

The numbers of registers and of classes are not zero. A definition that has one of their indices
mentions the fact by its name.
-/

namespace Nawam

instance neZero_two : NeZero 2 := ⟨Nat.succ_ne_zero 1⟩

instance neZero_four : NeZero 4 := ⟨Nat.succ_ne_zero 3⟩

instance neZero_five : NeZero 5 := ⟨Nat.succ_ne_zero 4⟩

instance neZero_eight : NeZero 8 := ⟨Nat.succ_ne_zero 7⟩

end Nawam
