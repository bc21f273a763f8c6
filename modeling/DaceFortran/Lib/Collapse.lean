/-
# Splitting a node of a graph

A node is replaced by parts, and edges are added that follow paths of the graph it
came from.  Collapsing the parts maps every path back, so no cycle can close; and
where every way through the node has a path in the new graph, the others reach each
other as before.
-/
import Mathlib.Logic.Relation
import Mathlib.Data.Nat.Notation

namespace Collapse

open Relation

variable {α β : Type*} {R : α → α → Prop} {R' : β → β → Prop}

/-- A path of the new graph collapses to a path of the old one, or it stays at one
node and its rank grows. -/
theorem transGen_collapse (φ : β → α) (rank : β → ℕ)
    (hstep : ∀ a b, R' a b → TransGen R (φ a) (φ b) ∨ (φ a = φ b ∧ rank a < rank b))
    {a b : β} (h : TransGen R' a b) :
    TransGen R (φ a) (φ b) ∨ (φ a = φ b ∧ rank a < rank b) := by
  induction h with
  | single hab => exact hstep _ _ hab
  | tail _ hbc ih =>
    rcases ih with hpath | ⟨hsame, hrank⟩
    · rcases hstep _ _ hbc with hnext | ⟨hnext, -⟩
      · exact .inl (hpath.trans hnext)
      · exact .inl (hnext ▸ hpath)
    · rcases hstep _ _ hbc with hnext | ⟨hnext, hrank'⟩
      · exact .inl (by rw [hsame]; exact hnext)
      · exact .inr ⟨hsame.trans hnext, Nat.lt_trans hrank hrank'⟩

/-- **No cycle closes.** -/
theorem acyclic_of_collapse (φ : β → α) (rank : β → ℕ)
    (hstep : ∀ a b, R' a b → TransGen R (φ a) (φ b) ∨ (φ a = φ b ∧ rank a < rank b))
    (hacyclic : ∀ a, ¬ TransGen R a a) (a : β) : ¬ TransGen R' a a := by
  intro h
  rcases transGen_collapse φ rank hstep h with hcycle | ⟨-, hrank⟩
  · exact hacyclic _ hcycle
  · exact Nat.lt_irrefl _ hrank

/-- **The other nodes reach each other as before**, when the edges between them and
the ways through the node are kept. -/
theorem transGen_bypass {R R' : α → α → Prop} {v : α}
    (hkeep : ∀ a b, a ≠ v → b ≠ v → R a b → TransGen R' a b)
    (hthrough : ∀ a b, R a v → R v b → TransGen R' a b) (hv : ¬ R v v)
    {a b : α} (h : TransGen R a b) (ha : a ≠ v) (hb : b ≠ v) : TransGen R' a b := by
  -- at the node itself, what is kept is the edge that led into it
  have hinto : (b ≠ v → TransGen R' a b) ∧
      (b = v → ∃ x, x ≠ v ∧ R x v ∧ (x = a ∨ TransGen R' a x)) := by
    clear hb
    induction h with
    | @single c hac =>
      refine ⟨fun hc => hkeep a c ha hc hac, ?_⟩
      rintro rfl
      exact ⟨a, ha, hac, .inl rfl⟩
    | @tail c d hac hcd ih =>
      by_cases hc : c = v
      · obtain ⟨x, hx, hxv, hreach⟩ := ih.2 hc
        subst hc
        constructor
        · intro hd
          have hxd := hthrough x d hxv hcd
          rcases hreach with rfl | hreach
          · exact hxd
          · exact hreach.trans hxd
        · rintro rfl
          exact absurd hcd hv
      · have hac' := ih.1 hc
        constructor
        · intro hd
          exact hac'.trans (hkeep c d hc hd hcd)
        · rintro rfl
          exact ⟨c, hc, hcd, .inr hac'⟩
  exact hinto.1 hb

end Collapse
