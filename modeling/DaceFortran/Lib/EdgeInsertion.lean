/-
# Adding an edge to a relation

What is reachable after an edge has been added, and when the relation stays acyclic.
-/
import Mathlib.Logic.Relation

namespace EdgeInsertion

open Relation

variable {α : Type*} {R R' : α → α → Prop} {a b : α}

/-- The relation with one more edge. -/
def Inserts (R R' : α → α → Prop) (a b : α) : Prop := ∀ x y, R' x y ↔ R x y ∨ (x = a ∧ y = b)

/-- A path of the new relation is one of the old, or one that runs over the edge. -/
theorem transGen_iff (h : Inserts R R' a b) (x y : α) :
    TransGen R' x y ↔ TransGen R x y ∨ (ReflTransGen R x a ∧ ReflTransGen R b y) := by
  constructor
  · intro hxy
    induction hxy with
    | single hstep =>
        rcases (h _ _).1 hstep with hR | ⟨rfl, rfl⟩
        · exact Or.inl (TransGen.single hR)
        · exact Or.inr ⟨ReflTransGen.refl, ReflTransGen.refl⟩
    | tail _ hstep ih =>
        rcases (h _ _).1 hstep with hR | ⟨rfl, rfl⟩
        · rcases ih with ih | ⟨hxa, hbz⟩
          · exact Or.inl (ih.tail hR)
          · exact Or.inr ⟨hxa, hbz.tail hR⟩
        · rcases ih with ih | ⟨hxa, -⟩
          · exact Or.inr ⟨ih.to_reflTransGen, ReflTransGen.refl⟩
          · exact Or.inr ⟨hxa, ReflTransGen.refl⟩
  · have hmono : ∀ x y, R x y → R' x y := fun x y hR => (h x y).2 (Or.inl hR)
    rintro (hxy | ⟨hxa, hby⟩)
    · exact TransGen.mono hmono _ _ hxy
    · have hedge : R' a b := (h a b).2 (Or.inr ⟨rfl, rfl⟩)
      exact TransGen.trans_left
        (TransGen.tail' (ReflTransGen.mono hmono _ _ hxa) hedge) (ReflTransGen.mono hmono _ _ hby)

/-- An edge against no path closes no cycle. -/
theorem acyclic (h : Inserts R R' a b) (hacyclic : ∀ x, ¬ TransGen R x x) (hne : a ≠ b)
    (hback : ¬ TransGen R b a) (x : α) : ¬ TransGen R' x x := by
  intro hx
  rcases (transGen_iff h x x).1 hx with hx | ⟨hxa, hbx⟩
  · exact hacyclic x hx
  · rcases reflTransGen_iff_eq_or_transGen.1 (hbx.trans hxa) with heq | hba
    · exact hne heq
    · exact hback hba

end EdgeInsertion
