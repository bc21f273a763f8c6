/-
# States with cells

A state has a cell for each key and a rest.  A fold that changes one cell after another changes
each of them once, where no key comes twice.
-/
import Mathlib.Data.List.Nodup

/-- Cells of a state by their keys: a state is given by its cells and its rest. -/
structure Cells (σ κ γ ρ : Type*) where
  get : σ → κ → γ
  set : σ → κ → γ → σ
  rest : σ → ρ
  get_set_self : ∀ s k c, get (set s k c) k = c
  get_set_of_ne : ∀ s k c k', k' ≠ k → get (set s k c) k' = get s k'
  rest_set : ∀ s k c, rest (set s k c) = rest s
  ext : ∀ s s', get s = get s' → rest s = rest s' → s = s'

namespace Cells

variable {σ κ γ ρ α : Type*} (C : Cells σ κ γ ρ)

theorem set_get (s : σ) (k : κ) : C.set s k (C.get s k) = s := by
  refine C.ext _ _ (funext fun k' => ?_) (C.rest_set _ _ _)
  by_cases h : k' = k
  · rw [h, C.get_set_self]
  · exact C.get_set_of_ne _ _ _ _ h

/-- **The fold rule**: each cell is changed by its step, and nothing else is. -/
theorem foldlM_eq_some_iff {key : α → κ} {step : α → γ → Option γ} {l : List α}
    (hl : (l.map key).Nodup) {s s' : σ} :
    l.foldlM (fun s a => (step a (C.get s (key a))).map (C.set s (key a))) s = some s' ↔
      (∀ a ∈ l, step a (C.get s (key a)) = some (C.get s' (key a))) ∧
        (∀ k ∉ l.map key, C.get s' k = C.get s k) ∧ C.rest s' = C.rest s := by
  induction l generalizing s with
  | nil =>
    constructor
    · intro h
      obtain rfl := Option.some.inj h
      exact ⟨by simp, fun _ _ => rfl, rfl⟩
    · rintro ⟨-, hget, hrest⟩
      exact congrArg some (C.ext _ _ (funext fun k => (hget k List.not_mem_nil).symm) hrest.symm)
  | cons a l ih =>
    obtain ⟨ha, hl⟩ := List.nodup_cons.1 hl
    have hne : ∀ b ∈ l, key b ≠ key a := fun b hb h => ha (h ▸ List.mem_map_of_mem hb)
    rw [List.foldlM_cons, List.forall_mem_cons]
    constructor
    · intro h
      obtain ⟨s₁, h₁, h⟩ := Option.bind_eq_some_iff.1 h
      obtain ⟨c, hc, rfl⟩ := Option.map_eq_some_iff.1 h₁
      obtain ⟨hsteps, hget, hrest⟩ := (ih hl).1 h
      refine ⟨⟨?_, fun b hb => ?_⟩, fun k hk => ?_, by rw [hrest, C.rest_set]⟩
      · rw [hget _ ha, C.get_set_self, hc]
      · rw [← hsteps b hb, C.get_set_of_ne _ _ _ _ (hne b hb)]
      · rw [List.map_cons, List.mem_cons, not_or] at hk
        rw [hget k hk.2, C.get_set_of_ne _ _ _ _ hk.1]
    · rintro ⟨⟨hstep, hsteps⟩, hget, hrest⟩
      refine Option.bind_eq_some_iff.2 ⟨_, Option.map_eq_some_iff.2 ⟨_, hstep, rfl⟩,
        (ih hl).2 ⟨fun b hb => ?_,
        fun k hk => ?_, by rw [hrest, C.rest_set]⟩⟩
      · rw [C.get_set_of_ne _ _ _ _ (hne b hb), hsteps b hb]
      · by_cases hka : k = key a
        · rw [hka, C.get_set_self]
        · rw [C.get_set_of_ne _ _ _ _ hka]
          exact hget k fun h => (List.mem_cons.1 h).elim hka hk

end Cells
