/-
# Classes of characters

The classes `\s` and `\w` of Python's patterns, on ASCII text.
-/
import Mathlib.Data.List.Basic

namespace CharClasses

variable {c : Char}

/-- `\s`, and what `str.strip` removes. -/
def isSpace (c : Char) : Bool := decide (c.toNat ∈ [9, 10, 11, 12, 13, 28, 29, 30, 31, 32])

/-- `\w` -/
def isWord (c : Char) : Bool := c.isAlphanum || decide (c = '_')

/-- A property of blanks is looked up. -/
theorem forall_space (q : Char → Prop)
    (h : ∀ n ∈ [9, 10, 11, 12, 13, 28, 29, 30, 31, 32], q (Char.ofNat n))
    (hc : isSpace c) : q c := by
  have hq := h c.toNat (of_decide_eq_true hc)
  rwa [Char.ofNat_toNat] at hq

/-- No character is of both classes. -/
theorem not_word_of_space (h : isSpace c) : ¬ isWord c :=
  forall_space (fun c => ¬ isWord c) (by decide) h

theorem isSpace_eq_false_of_isWord (h : isWord c = true) : isSpace c = false :=
  Bool.eq_false_iff.2 fun hs => not_word_of_space hs h

end CharClasses
