/-
# Union-find with path halving

A forest of parent pointers over any type.  `find` shortens the way it walks and
keeps every root (`root_find`), `unite` joins two trees (`root_unite`), and after
a list of them two elements have one root exactly when the pairs connect them
(`same_uniteAll`).
-/
import Mathlib.Logic.Relation
import Mathlib.Data.List.Basic

namespace UnionFind

/-- Elements whose steps are connections are connected. -/
theorem eqvGen_bind {α : Type} {R S : α → α → Prop} (h : ∀ a b, R a b → Relation.EqvGen S a b)
    {a b : α} (hab : Relation.EqvGen R a b) : Relation.EqvGen S a b :=
  (Relation.EqvGen.is_equivalence S).eqvGen_iff.mp (Relation.EqvGen.mono h a b hab)

variable {α : Type} [DecidableEq α]

/-- Parent pointers that lead to a root: `depth` bounds the way. -/
structure Forest (α : Type) where
  parent : α → α
  depth : α → ℕ
  depth_parent : ∀ x, parent x ≠ x → depth (parent x) < depth x

namespace Forest

/-- Every element is a root. -/
def singletons : Forest α := ⟨id, fun _ => 0, fun _ h => absurd rfl h⟩

/-- The root above an element. -/
def root (F : Forest α) (x : α) : α :=
  if _h : F.parent x = x then x else F.root (F.parent x)
termination_by F.depth x
decreasing_by exact F.depth_parent x ‹_›

/-- Two elements have one root. -/
def Same (F : Forest α) (x y : α) : Prop := F.root x = F.root y

/-! ## Roots -/

theorem root_of_parent {F : Forest α} {x : α} (h : F.parent x = x) : F.root x = x := by
  rw [root, dif_pos h]

variable (F : Forest α)

theorem root_parent (x : α) : F.root (F.parent x) = F.root x := by
  by_cases h : F.parent x = x
  · rw [h]
  · conv_rhs => rw [root, dif_neg h]

/-- Induction up the way to the root. -/
theorem induction_up {P : α → Prop} (hroot : ∀ x, F.parent x = x → P x)
    (hstep : ∀ x, F.parent x ≠ x → P (F.parent x) → P x) (x : α) : P x := by
  generalize hd : F.depth x = d
  induction d using Nat.strongRecOn generalizing x with
  | ind d ih =>
    by_cases h : F.parent x = x
    · exact hroot x h
    · apply hstep x h
      refine ih (F.depth (F.parent x)) ?_ (F.parent x) rfl
      rw [← hd]
      exact F.depth_parent x h

theorem parent_root (x : α) : F.parent (F.root x) = F.root x := by
  induction x using F.induction_up with
  | hroot x h => rw [root_of_parent h, h]
  | hstep x _ ih => rwa [root_parent] at ih

@[simp] theorem root_singletons (x : α) : (singletons : Forest α).root x = x :=
  root_of_parent rfl

/-- A forest with the parents above every element among its own ancestors has the same roots. -/
theorem root_eq_of_parent {F G : Forest α} (hup : ∀ x, F.root (G.parent x) = F.root x)
    (hmove : ∀ x, G.parent x = x → F.parent x = x) : G.root = F.root := by
  funext x
  induction x using G.induction_up with
  | hroot x h => rw [root_of_parent h, root_of_parent (hmove x h)]
  | hstep x _ ih => rw [← root_parent, ih, hup]

/-! ## Find -/

/-- `parent[x] = parent[parent[x]]`. -/
def halve (F : Forest α) (x : α) : Forest α where
  parent := Function.update F.parent x (F.parent (F.parent x))
  depth := F.depth
  depth_parent := by
    intro y hy
    rcases eq_or_ne y x with rfl | hyx
    · rw [Function.update_self] at hy ⊢
      by_cases h : F.parent y = y
      · rw [h, h] at hy
        exact absurd rfl hy
      · by_cases h' : F.parent (F.parent y) = F.parent y
        · rw [h']
          exact F.depth_parent y h
        · exact Nat.lt_trans (F.depth_parent _ h') (F.depth_parent y h)
    · rw [Function.update_of_ne hyx] at hy ⊢
      exact F.depth_parent y hy

theorem root_halve (x : α) : (F.halve x).root = F.root := by
  have hp : ∀ y, (F.halve x).parent y = if y = x then F.parent (F.parent x) else F.parent y := by
    intro y
    unfold halve
    exact Function.update_apply ..
  apply root_eq_of_parent
  · intro y
    rw [hp]
    split_ifs with h
    · rw [root_parent, root_parent, h]
    · exact root_parent F y
  · intro y hy
    rw [hp] at hy
    split_ifs at hy with h
    · -- a way that comes back has no length
      subst h
      by_contra hne
      have h₁ := F.depth_parent y hne
      by_cases h' : F.parent (F.parent y) = F.parent y
      · exact hne (h'.symm.trans hy)
      · have h₂ := F.depth_parent _ h'
        rw [hy] at h₂
        omega
    · exact hy

/-- `while (parent[x] != x) x = parent[x] = parent[parent[x]]; return x`. -/
def find (F : Forest α) (x : α) : α × Forest α :=
  if _h : F.parent x = x then (x, F) else (F.halve x).find (F.parent (F.parent x))
termination_by F.depth x
decreasing_by
  show F.depth (F.parent (F.parent x)) < F.depth x
  by_cases h' : F.parent (F.parent x) = F.parent x
  · rw [h']
    exact F.depth_parent x ‹_›
  · exact Nat.lt_trans (F.depth_parent _ h') (F.depth_parent x ‹_›)

/-- **`find` returns the root and keeps all roots.** -/
theorem find_spec (x : α) :
    (F.find x).1 = F.root x ∧ (F.find x).2.root = F.root := by
  induction F, x using find.induct with
  | case1 F x h =>
    rw [find, dif_pos h]
    exact ⟨(root_of_parent h).symm, rfl⟩
  | case2 F x h ih =>
    rw [find, dif_neg h]
    rw [root_halve, root_parent, root_parent] at ih
    exact ih

theorem find_fst (x : α) : (F.find x).1 = F.root x := (F.find_spec x).1

theorem root_find (x : α) : (F.find x).2.root = F.root := (F.find_spec x).2

/-! ## Unite -/

/-- A root gets another root as its parent. -/
def link (F : Forest α) (r s : α) (hr : F.parent r = r) (hs : F.parent s = s) : Forest α where
  parent := Function.update F.parent r s
  depth y := if F.root y = r ∧ r ≠ s then F.depth y + F.depth s + 1 else F.depth y
  depth_parent := by
    intro y hy
    rcases eq_or_ne y r with rfl | hyr
    · rw [Function.update_self] at hy ⊢
      rw [root_of_parent hs, root_of_parent hr, if_neg (fun h => hy h.1), if_pos ⟨rfl, hy.symm⟩]
      omega
    · rw [Function.update_of_ne hyr] at hy ⊢
      have hlt := F.depth_parent y hy
      rw [root_parent]
      split_ifs <;> omega

theorem root_link {r s : α} (hr : F.parent r = r) (hs : F.parent s = s) (x : α) :
    (F.link r s hr hs).root x = if F.root x = r then s else F.root x := by
  have hp : ∀ y, (F.link r s hr hs).parent y = if y = r then s else F.parent y := by
    intro y
    unfold link
    exact Function.update_apply ..
  have hroots : (F.link r s hr hs).root s = s := by
    apply root_of_parent
    rw [hp]
    split_ifs
    · rfl
    · exact hs
  induction x using F.induction_up with
  | hroot x h =>
    rw [root_of_parent h]
    split_ifs with hx
    · rw [← root_parent, hp, if_pos hx, hroots]
    · apply root_of_parent
      rw [hp, if_neg hx, h]
  | hstep x h ih =>
    have hx : x ≠ r := by
      rintro rfl
      exact h hr
    rw [← root_parent, hp, if_neg hx, ih, root_parent]

/-- `parent[find(a)] = find(b)`; the right-hand side is evaluated first. -/
def unite (F : Forest α) (a b : α) : Forest α :=
  let s := F.find b
  let r := s.2.find a
  r.2.link r.1 s.1
    (by
      have h : r.2.root = F.root := (root_find _ _).trans (root_find _ _)
      have hr : r.1 = F.root a := (find_fst _ _).trans (by rw [root_find])
      rw [hr, ← h]
      exact parent_root _ _)
    (by
      have h : r.2.root = F.root := (root_find _ _).trans (root_find _ _)
      have hs : s.1 = F.root b := find_fst _ _
      rw [hs, ← h]
      exact parent_root _ _)

theorem root_unite (a b x : α) :
    (F.unite a b).root x = if F.root x = F.root a then F.root b else F.root x := by
  unfold unite
  simp only [root_link, find_fst, root_find]

/-- **Uniting joins two trees.** -/
theorem same_unite (a b x y : α) :
    (F.unite a b).Same x y ↔ F.Same x y ∨ (F.Same x a ∧ F.Same b y) ∨
      (F.Same x b ∧ F.Same a y) := by
  unfold Same
  rw [root_unite, root_unite]
  split_ifs with hx hy hy
  · simp [hx, hy]
  · rw [hx]
    constructor
    · intro h
      exact Or.inr (Or.inl ⟨rfl, h⟩)
    · rintro (h | ⟨-, h⟩ | ⟨h, h'⟩)
      · exact absurd h.symm hy
      · exact h
      · exact absurd h'.symm hy
  · rw [hy]
    constructor
    · intro h
      exact Or.inr (Or.inr ⟨h, rfl⟩)
    · rintro (h | ⟨h, -⟩ | ⟨h, -⟩)
      · exact absurd h hx
      · exact absurd h hx
      · exact h
  · constructor
    · exact Or.inl
    · rintro (h | ⟨h, -⟩ | ⟨-, h⟩)
      · exact h
      · exact absurd h hx
      · exact absurd h.symm hy

/-- The pairs of a list, one after the other. -/
def uniteAll (F : Forest α) (l : List (α × α)) : Forest α := l.foldl (fun F p => F.unite p.1 p.2) F

/-- **Two elements have one root exactly when the pairs connect them.** -/
theorem same_uniteAll (l : List (α × α)) (x y : α) :
    (F.uniteAll l).Same x y ↔ Relation.EqvGen (fun a b => F.Same a b ∨ (a, b) ∈ l) x y := by
  induction l generalizing F with
  | nil =>
    simp only [uniteAll, List.foldl_nil, List.not_mem_nil, or_false]
    constructor
    · exact Relation.EqvGen.rel x y
    · have heqv : Equivalence F.Same := ⟨fun _ => rfl, Eq.symm, Eq.trans⟩
      exact heqv.eqvGen_iff.mp
  | cons p l ih =>
    show ((F.unite p.1 p.2).uniteAll l).Same x y ↔ _
    rw [ih]
    constructor
    · refine eqvGen_bind ?_
      rintro a b (h | h)
      · rw [same_unite] at h
        have hab : Relation.EqvGen (fun a b => F.Same a b ∨ (a, b) ∈ p :: l) p.1 p.2 :=
          .rel _ _ (Or.inr (List.mem_cons_self ..))
        rcases h with h | ⟨h, h'⟩ | ⟨h, h'⟩
        · exact .rel _ _ (Or.inl h)
        · exact .trans _ _ _ (.rel _ _ (Or.inl h)) (.trans _ _ _ hab (.rel _ _ (Or.inl h')))
        · exact .trans _ _ _ (.rel _ _ (Or.inl h))
            (.trans _ _ _ (.symm _ _ hab) (.rel _ _ (Or.inl h')))
      · exact .rel _ _ (Or.inr (List.mem_cons_of_mem _ h))
    · refine Relation.EqvGen.mono ?_ x y
      rintro a b (h | h)
      · left
        rw [same_unite]
        exact Or.inl h
      · rcases List.mem_cons.mp h with rfl | h
        · left
          rw [same_unite]
          exact Or.inr (Or.inl ⟨rfl, rfl⟩)
        · exact Or.inr h

end Forest

end UnionFind
