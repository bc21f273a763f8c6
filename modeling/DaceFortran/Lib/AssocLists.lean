/-
# Lookups in lists of pairs

A lookup finds a pair of the list, and with distinct keys every pair is found under its key.
-/
import Mathlib.Data.List.Nodup

open List

namespace AssocLists

variable {α β : Type} [BEq α] [LawfulBEq α] {l : List (α × β)} {a : α} {b : β}

/-- A pair a lookup finds is in the list. -/
theorem mem_of_lookup (h : l.lookup a = some b) : (a, b) ∈ l := by
  obtain ⟨l₁, l₂, rfl, -⟩ := lookup_eq_some_iff.mp h
  simp

/-- A lookup finds the pair of its key, the keys being distinct. -/
theorem lookup_of_mem (hnodup : (l.map Prod.fst).Nodup) (h : (a, b) ∈ l) : l.lookup a = some b := by
  induction l with
  | nil => cases h
  | cons x l ih =>
    rw [map_cons, nodup_cons] at hnodup
    rw [lookup_cons]
    rcases mem_cons.mp h with rfl | h
    · simp
    · have hne : (a == x.1) = false := by
        simp only [beq_eq_false_iff_ne]
        rintro rfl
        exact hnodup.1 (mem_map.mpr ⟨_, h, rfl⟩)
      simp only [hne]
      exact ih hnodup.2 h

/-- A lookup finds nothing exactly where the key is not in the list. -/
theorem lookup_eq_none : l.lookup a = none ↔ a ∉ l.map Prod.fst := by
  rw [lookup_eq_none_iff]
  constructor
  · intro h hmem
    obtain ⟨p, hp, rfl⟩ := mem_map.mp hmem
    exact absurd (h p hp) (by simp)
  · intro h p hp
    refine bne_iff_ne.mpr ?_
    rintro rfl
    exact h (mem_map.mpr ⟨p, hp, rfl⟩)

/-- A lookup among the pairs with certain keys. -/
theorem lookup_filter (keep : α → Bool) :
    (l.filter fun p => keep p.1).lookup a = if keep a then l.lookup a else none := by
  induction l with
  | nil => simp
  | cons p l ih =>
    obtain ⟨x, b⟩ := p
    by_cases hx : keep x
    · rw [filter_cons_of_pos (by simpa using hx), lookup_cons, lookup_cons, ih]
      by_cases ha : a = x
      · subst ha
        rw [if_pos hx, if_pos hx]
      · rw [beq_false_of_ne ha]
    · rw [filter_cons_of_neg (by simpa using hx), ih, lookup_cons]
      by_cases ha : a = x
      · rw [ha, if_neg hx, if_neg hx]
      · rw [beq_false_of_ne ha]

end AssocLists
