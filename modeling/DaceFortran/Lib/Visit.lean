/-
# Depth-first marking

A recursive walk that marks what it meets: at every node it takes a list of
actions, each of which marks a node only (`mark`) or marks it and walks it too,
unless it is marked already (`visit`).  `visit` is the executable walk, with
fuel for its depth; `Run` is what it does, together with the nodes it walked.
A run keeps everything it meets, and walks everything it visits that nothing has
marked before (`Run.closed`, `Run.walked_or_marked`).
-/
import Mathlib.Data.Finset.Card

open List

namespace Visit

variable {α : Type*}

/-- What the walk does with a node it meets. -/
inductive Action (α : Type*) where
  | mark (a : α)
  | visit (a : α)
  deriving DecidableEq

/-- The node of an action. -/
def Action.target : Action α → α
  | .mark a => a
  | .visit a => a

/-! ## The walk -/

/-- The marks after the actions, with fuel for the depth of the walk. -/
def visit [DecidableEq α] (walk : α → List (Action α)) :
    ℕ → List (Action α) → List α → List α
  | 0, _, S => S
  | fuel + 1, acts, S => acts.foldl (fun S act =>
      match act with
      | .mark a => a :: S
      | .visit a => if a ∈ S then S else visit walk fuel (walk a) (a :: S)) S

/-- A run of the actions from the marks `S` ends with the marks `S'`, having walked `W`. -/
inductive Run (walk : α → List (Action α)) :
    List (Action α) → List α → List α → List α → Prop
  | nil {S : List α} : Run walk [] S S []
  | mark {a : α} {acts : List (Action α)} {S S' W : List α} :
      Run walk acts (a :: S) S' W → Run walk (.mark a :: acts) S S' W
  | skip {a : α} {acts : List (Action α)} {S S' W : List α} :
      a ∈ S → Run walk acts S S' W → Run walk (.visit a :: acts) S S' W
  | visit {a : α} {acts : List (Action α)} {S S₁ S' W₁ W : List α} :
      a ∉ S → Run walk (walk a) (a :: S) S₁ W₁ → Run walk acts S₁ S' W →
      Run walk (.visit a :: acts) S S' (a :: (W₁ ++ W))

variable {walk : α → List (Action α)} {acts : List (Action α)} {S S' W : List α}

/-! ## What a run does -/

/-- Marks stay. -/
theorem Run.subset (h : Run walk acts S S' W) : S ⊆ S' := by
  induction h with
  | nil => exact List.Subset.refl _
  | mark _ ih => exact List.Subset.trans (subset_cons_self _ _) ih
  | skip _ _ ih => exact ih
  | visit _ _ _ ih₁ ih =>
      exact List.Subset.trans (List.Subset.trans (subset_cons_self _ _) ih₁) ih

/-- Everything the actions meet is marked. -/
theorem Run.target_mem (h : Run walk acts S S' W) : ∀ act ∈ acts, act.target ∈ S' := by
  induction h with
  | nil => simp
  | mark hrest ih =>
      intro act hact
      rcases mem_cons.mp hact with rfl | hact
      · exact hrest.subset mem_cons_self
      · exact ih act hact
  | skip ha hrest ih =>
      intro act hact
      rcases mem_cons.mp hact with rfl | hact
      · exact hrest.subset ha
      · exact ih act hact
  | visit _ hwalk hrest _ ih =>
      intro act hact
      rcases mem_cons.mp hact with rfl | hact
      · exact hrest.subset (hwalk.subset mem_cons_self)
      · exact ih act hact

/-- **A run is closed.**  Everything a walked node meets is marked. -/
theorem Run.closed (h : Run walk acts S S' W) : ∀ w ∈ W, ∀ act ∈ walk w, act.target ∈ S' := by
  induction h with
  | nil => simp
  | mark _ ih => exact ih
  | skip _ _ ih => exact ih
  | visit _ hwalk hrest ih₁ ih =>
      intro w hw act hact
      rcases mem_cons.mp hw with rfl | hw
      · exact hrest.subset (hwalk.target_mem act hact)
      · rcases mem_append.mp hw with hw | hw
        · exact hrest.subset (ih₁ w hw act hact)
        · exact ih w hw act hact

/-- Every new mark was walked, or marked by an action of the run. -/
theorem Run.walked_or_marked (h : Run walk acts S S' W) :
    ∀ a ∈ S', a ∈ S ∨ a ∈ W ∨ .mark a ∈ acts ∨ ∃ w ∈ W, .mark a ∈ walk w := by
  induction h with
  | nil => exact fun a ha => Or.inl ha
  | @mark b acts S S' W _ ih =>
      intro a ha
      rcases ih a ha with h | h | h | h
      · rcases mem_cons.mp h with rfl | h
        · exact Or.inr (Or.inr (Or.inl mem_cons_self))
        · exact Or.inl h
      · exact Or.inr (Or.inl h)
      · exact Or.inr (Or.inr (Or.inl (mem_cons_of_mem _ h)))
      · exact Or.inr (Or.inr (Or.inr h))
  | skip _ _ ih =>
      intro a ha
      rcases ih a ha with h | h | h | h
      · exact Or.inl h
      · exact Or.inr (Or.inl h)
      · exact Or.inr (Or.inr (Or.inl (mem_cons_of_mem _ h)))
      · exact Or.inr (Or.inr (Or.inr h))
  | @visit b acts S S₁ S' W₁ W _ _ _ ih₁ ih =>
      intro a ha
      have hW : ∀ w, w ∈ W₁ ∨ w ∈ W → w ∈ b :: (W₁ ++ W) := by
        intro w hw
        exact mem_cons_of_mem _ (mem_append.mpr hw)
      rcases ih a ha with h | h | h | ⟨w, hw, h⟩
      · rcases ih₁ a h with h | h | h | ⟨w, hw, h⟩
        · rcases mem_cons.mp h with rfl | h
          · exact Or.inr (Or.inl mem_cons_self)
          · exact Or.inl h
        · exact Or.inr (Or.inl (hW a (Or.inl h)))
        · exact Or.inr (Or.inr (Or.inr ⟨b, mem_cons_self, h⟩))
        · exact Or.inr (Or.inr (Or.inr ⟨w, hW w (Or.inl hw), h⟩))
      · exact Or.inr (Or.inl (hW a (Or.inr h)))
      · exact Or.inr (Or.inr (Or.inl (mem_cons_of_mem _ h)))
      · exact Or.inr (Or.inr (Or.inr ⟨w, hW w (Or.inr hw), h⟩))

/-- The nodes met from `K` by visits. -/
inductive Reached (walk : α → List (Action α)) (K : List α) : α → Prop
  | keeper {a : α} : a ∈ K → Reached walk K a
  | visit {w a : α} : Reached walk K w → .visit a ∈ walk w → Reached walk K a

/-- What is reached from some nodes is reached from one of them. -/
theorem reached_iff {K : List α} {a : α} : Reached walk K a ↔ ∃ k ∈ K, Reached walk [k] a := by
  constructor
  · intro h
    induction h with
    | keeper hk => exact ⟨_, hk, .keeper (mem_singleton_self _)⟩
    | visit _ hvisit ih =>
      obtain ⟨k, hk, hw⟩ := ih
      exact ⟨k, hk, hw.visit hvisit⟩
  · rintro ⟨k, hk, h⟩
    induction h with
    | keeper h => exact .keeper (mem_singleton.1 h ▸ hk)
    | visit _ hvisit ih => exact ih.visit hvisit

/-- What a run walks is reached, if its actions visit only what is. -/
theorem Run.walked_reached {K : List α} (h : Run walk acts S S' W)
    (hacts : ∀ a, .visit a ∈ acts → Reached walk K a) : ∀ w ∈ W, Reached walk K w := by
  induction h with
  | nil => simp
  | mark _ ih => exact ih (fun a ha => hacts a (mem_cons_of_mem _ ha))
  | skip _ _ ih => exact ih (fun a ha => hacts a (mem_cons_of_mem _ ha))
  | visit _ _ _ ih₁ ih =>
      intro w hw
      have hb := hacts _ mem_cons_self
      rcases mem_cons.mp hw with rfl | hw
      · exact hb
      · rcases mem_append.mp hw with hw | hw
        · exact ih₁ (fun a ha => hb.visit ha) w hw
        · exact ih (fun a ha => hacts a (mem_cons_of_mem _ ha)) w hw

/-! ## Fuel -/

variable [DecidableEq α]

theorem visit_cons (fuel : ℕ) (act : Action α) (acts : List (Action α)) (S : List α) :
    visit walk (fuel + 1) (act :: acts) S =
      visit walk (fuel + 1) acts (visit walk (fuel + 1) [act] S) := rfl

/-- **Fuel for all nodes is enough.**  The walk is a run when every node it can
meet is in `U` and the fuel exceeds what is left of it. -/
theorem run_visit {U : Finset α} (hU : ∀ a ∈ U, ∀ act ∈ walk a, act.target ∈ U) (fuel : ℕ)
    {acts : List (Action α)} {S : List α} (hacts : ∀ act ∈ acts, act.target ∈ U)
    (hfuel : ∀ V ⊆ U, (∀ a ∈ V, a ∉ S) → V.card < fuel) :
    ∃ W, Run walk acts S (visit walk fuel acts S) W := by
  induction fuel generalizing acts S with
  | zero =>
      have := hfuel ∅ (Finset.empty_subset U) (by simp)
      omega
  | succ fuel ihfuel =>
      induction acts generalizing S with
      | nil => exact ⟨[], .nil⟩
      | cons act acts ih =>
          have hrest : ∀ act ∈ acts, act.target ∈ U := fun b hb => hacts b (mem_cons_of_mem _ hb)
          -- marking more leaves less to walk
          have hmono : ∀ {T : List α}, S ⊆ T → ∀ V ⊆ U, (∀ a ∈ V, a ∉ T) → V.card < fuel + 1 :=
            fun hT V hV hdisj => hfuel V hV (fun a ha haS => hdisj a ha (hT haS))
          rw [visit_cons]
          cases act with
          | mark a =>
              obtain ⟨W, hW⟩ := ih hrest (hmono (subset_cons_self a S))
              exact ⟨W, .mark hW⟩
          | visit a =>
              have haU : a ∈ U := hacts _ mem_cons_self
              by_cases ha : a ∈ S
              · have hone : visit walk (fuel + 1) [.visit a] S = S := by simp [visit, ha]
                rw [hone]
                obtain ⟨W, hW⟩ := ih hrest hfuel
                exact ⟨W, .skip ha hW⟩
              · have hone : visit walk (fuel + 1) [.visit a] S =
                    visit walk fuel (walk a) (a :: S) := by
                  simp [visit, ha]
                rw [hone]
                have hless : ∀ V ⊆ U, (∀ b ∈ V, b ∉ a :: S) → V.card < fuel := by
                  intro V hV hdisj
                  have haV : a ∉ V := fun h => hdisj a h mem_cons_self
                  have := hfuel (Finset.cons a V haV) (Finset.cons_subset.mpr ⟨haU, hV⟩)
                    (by
                      intro b hb
                      rcases Finset.mem_cons.mp hb with rfl | hb
                      · exact ha
                      · exact fun hbS => hdisj b hb (mem_cons_of_mem a hbS))
                  rw [Finset.card_cons] at this
                  omega
                obtain ⟨W₁, hW₁⟩ := ihfuel (hU a haU) hless
                have hsub : S ⊆ visit walk fuel (walk a) (a :: S) :=
                  List.Subset.trans (subset_cons_self a S) hW₁.subset
                obtain ⟨W, hW⟩ := ih hrest (hmono hsub)
                exact ⟨a :: (W₁ ++ W), .visit ha hW₁ hW⟩

end Visit
