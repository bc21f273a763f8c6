/-
# Computations that may raise

Rules for `Except` computations that have returned: what a bind ran, and what a
fold establishes for the elements it went through.
-/
import Mathlib.Data.List.Forall2

open List

namespace Fallible

variable {ε α β σ : Type}

variable {x : Except ε α} {b : β} {I : σ → Prop}

/-- A computation that returned ran its first part. -/
theorem ok_of_bind {f : α → Except ε β} (h : (x >>= f) = .ok b) :
    ∃ a, x = .ok a ∧ f a = .ok b := by
  cases x with
  | error r => cases h
  | ok a => exact ⟨a, rfl, h⟩

theorem ok_of_map {f : α → β} (h : (x >>= fun a => .ok (f a)) = .ok b) :
    ∃ a, x = .ok a ∧ f a = b := by
  obtain ⟨a, ha, hb⟩ := ok_of_bind h
  exact ⟨a, ha, Except.ok.inj hb⟩

variable {f : σ → α → Except ε σ} {s s' : σ} {l : List α}

/-- **Invariant rule**: what every round keeps, the fold keeps. -/
theorem foldlM_invariant
    (step : ∀ s a s', a ∈ l → f s a = .ok s' → I s → I s') (h : l.foldlM f s = .ok s') (hs : I s) :
    I s' := by
  induction l generalizing s with
  | nil =>
    obtain rfl := Except.ok.inj h
    exact hs
  | cons a l ih =>
    rw [foldlM_cons] at h
    obtain ⟨s₁, h₁, h₂⟩ := ok_of_bind h
    refine ih ?_ h₂ (step s a s₁ (mem_cons_self ..) h₁ hs)
    intro s b s' hb
    exact step s b s' (mem_cons_of_mem _ hb)

variable {R : α → σ → Prop} {l' : List β} {p : α → Option β}

/-- **Element rule**: what the round of an element establishes and the others keep, holds of
every element in the end. -/
theorem foldlM_forall (establish : ∀ s a s', f s a = .ok s' → R a s')
    (keep : ∀ s a b s', f s b = .ok s' → R a s → R a s') (h : l.foldlM f s = .ok s') :
    ∀ a ∈ l, R a s' := by
  induction l generalizing s with
  | nil =>
    intro a ha
    cases ha
  | cons b l ih =>
    rw [foldlM_cons] at h
    obtain ⟨s₁, h₁, h₂⟩ := ok_of_bind h
    intro a ha
    rcases mem_cons.mp ha with rfl | ha
    · exact foldlM_invariant (fun s b s' _ => keep s a b s') h₂ (establish s a s₁ h₁)
    · exact ih h₂ a ha

/-! ## Computations that may give nothing -/

variable {g : σ → α → Option σ}

/-- **Invariant rule**, for `Option`. -/
theorem foldlM_invariant_some (step : ∀ s a s', a ∈ l → g s a = some s' → I s → I s')
    (h : l.foldlM g s = some s') (hs : I s) : I s' := by
  induction l generalizing s with
  | nil =>
    obtain rfl := Option.some.inj h
    exact hs
  | cons a l ih =>
    rw [foldlM_cons] at h
    obtain ⟨s₁, h₁, h₂⟩ := Option.bind_eq_some_iff.1 h
    refine ih ?_ h₂ (step s a s₁ (mem_cons_self ..) h₁ hs)
    intro s b s' hb
    exact step s b s' (mem_cons_of_mem _ hb)

/-- **Element rule**, for `Option`. -/
theorem foldlM_forall_some (establish : ∀ s a s', a ∈ l → g s a = some s' → R a s')
    (keep : ∀ s a b s', b ∈ l → g s b = some s' → R a s → R a s') (h : l.foldlM g s = some s') :
    ∀ a ∈ l, R a s' := by
  induction l generalizing s with
  | nil =>
    intro a ha
    cases ha
  | cons b l ih =>
    rw [foldlM_cons] at h
    obtain ⟨s₁, h₁, h₂⟩ := Option.bind_eq_some_iff.1 h
    have hkeep : ∀ s a c s', c ∈ l → g s c = some s' → R a s → R a s' :=
      fun s a c s' hc => keep s a c s' (mem_cons_of_mem b hc)
    intro a ha
    rcases mem_cons.mp ha with rfl | ha
    · exact foldlM_invariant_some (fun s c s' hc => hkeep s a c s' hc) h₂
        (establish s a s₁ (mem_cons_self ..) h₁)
    · exact ih (fun s c s' hc => establish s c s' (mem_cons_of_mem b hc)) hkeep h₂ a ha

/-- Where a fold gives up. -/
theorem exists_none_of_foldlM (h : l.foldlM g s = none) : ∃ a ∈ l, ∃ s', g s' a = none := by
  induction l generalizing s with
  | nil => cases h
  | cons a l ih =>
    rw [foldlM_cons] at h
    cases hg : g s a with
    | none => exact ⟨a, mem_cons_self, s, hg⟩
    | some s₁ =>
      rw [hg] at h
      obtain ⟨b, hb, s', hs'⟩ := ih h
      exact ⟨b, mem_cons_of_mem a hb, s', hs'⟩

/-- What a list gives element by element. -/
theorem mapM_eq_some_iff :
    l.mapM p = some l' ↔ List.Forall₂ (fun a b => p a = some b) l l' := by
  induction l generalizing l' with
  | nil => simp [eq_comm]
  | cons a l ih =>
    rw [mapM_cons]
    constructor
    · intro h
      obtain ⟨b, hb, h⟩ := Option.bind_eq_some_iff.mp h
      obtain ⟨bs, hbs, h⟩ := Option.bind_eq_some_iff.mp h
      obtain rfl := Option.some.inj h
      exact .cons hb (ih.mp hbs)
    · rintro (_ | ⟨hb, hbs⟩)
      exact Option.bind_eq_some_iff.mpr ⟨_, hb, Option.bind_eq_some_iff.mpr ⟨_, ih.mpr hbs, rfl⟩⟩

/-- What is in the result comes from an element. -/
theorem exists_of_mem_mapM (h : l.mapM p = some l') (hb : b ∈ l') :
    ∃ a ∈ l, p a = some b := by
  have hall := mapM_eq_some_iff.1 h
  clear h
  induction hall with
  | nil => cases hb
  | cons hab _ ih =>
    rcases mem_cons.mp hb with rfl | hb
    · exact ⟨_, mem_cons_self, hab⟩
    · obtain ⟨a, ha, hab⟩ := ih hb
      exact ⟨a, mem_cons_of_mem _ ha, hab⟩

/-- What an element gives is in the result. -/
theorem exists_mem_mapM (h : l.mapM p = some l') {a : α} (ha : a ∈ l) :
    ∃ b ∈ l', p a = some b := by
  have hall := mapM_eq_some_iff.1 h
  clear h
  induction hall with
  | nil => cases ha
  | cons hab _ ih =>
    rcases mem_cons.mp ha with rfl | ha
    · exact ⟨_, mem_cons_self, hab⟩
    · obtain ⟨b, hb, hab⟩ := ih ha
      exact ⟨b, mem_cons_of_mem _ hb, hab⟩

end Fallible
