/-
# The decimal text of a number

It has digits, at least one.
-/
import Mathlib.Data.Nat.Digits.Defs

namespace Decimal

theorem isDigit_of_mem_toString {n : ℕ} {c : Char} (h : c ∈ (toString n).toList) : c.isDigit := by
  change c ∈ n.repr.toList at h
  rw [Nat.toList_repr] at h
  exact Nat.isDigit_of_mem_toDigits (by decide) (by decide) h

theorem toString_ne_nil (n : ℕ) : (toString n).toList ≠ [] := by
  show n.repr.toList ≠ []
  rw [Nat.toList_repr]
  exact Nat.toDigits_ne_nil

end Decimal
