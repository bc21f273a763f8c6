/-
# The nearest ancestor that answers

A chain is walked by a partial step.  A trace asks one element after another and
returns the first answer, within a number of elements.  What it returns is the
answer of the nearest element that has one (`trace_eq_some`), and what holds of
two neighbours whenever the first has no answer holds of both ends (`Nearest.fold`).
-/
import Mathlib.Data.Nat.Notation

namespace Ancestors

variable {α β : Type*} {step : α → Option α} {ask : α → Option β}

/-- The first answer of `n` elements from `a` on. -/
def trace (step : α → Option α) (ask : α → Option β) : ℕ → α → Option β
  | 0, _ => none
  | n + 1, a =>
    match ask a with
    | some b => some b
    | none =>
      match step a with
      | some a' => trace step ask n a'
      | none => none

/-- `w` is the first of `n` elements from `a` on that has an answer. -/
inductive Nearest (step : α → Option α) (ask : α → Option β) : ℕ → α → α → Prop
  | here {n : ℕ} {a : α} {b : β} (h : ask a = some b) : Nearest step ask (n + 1) a a
  | back {n : ℕ} {a a' w : α} (h : ask a = none) (hs : step a = some a')
      (t : Nearest step ask n a' w) : Nearest step ask (n + 1) a w

variable {n : ℕ} {a w : α}

theorem Nearest.answers (h : Nearest step ask n a w) : ∃ b, ask w = some b := by
  induction h with
  | here h => exact ⟨_, h⟩
  | back _ _ _ ih => exact ih

/-- **A trace answers as the nearest ancestor does.** -/
theorem trace_eq_some {b : β} :
    trace step ask n a = some b ↔ ∃ w, Nearest step ask n a w ∧ ask w = some b := by
  induction n generalizing a with
  | zero =>
    constructor
    · intro h
      cases h
    · rintro ⟨w, h, -⟩
      cases h
  | succ n ih =>
    rw [trace]
    constructor
    · intro h
      cases hask : ask a with
      | some b' =>
        rw [hask] at h
        exact ⟨a, .here hask, hask.trans h⟩
      | none =>
        cases hstep : step a with
        | none => simp only [hask, hstep, reduceCtorEq] at h
        | some a' =>
          simp only [hask, hstep] at h
          obtain ⟨w, hw, hb⟩ := ih.mp h
          exact ⟨w, .back hask hstep hw, hb⟩
    · rintro ⟨w, hw, hb⟩
      cases hw with
      | here h => rw [hb]
      | back h hs t =>
        simp only [h, hs]
        exact ih.mpr ⟨w, t, hb⟩

/-- What neighbours share while nothing answers is shared with the nearest ancestor. -/
theorem Nearest.fold {R : α → α → Prop} (hrefl : ∀ a, R a a)
    (hback : ∀ a a' w, ask a = none → step a = some a' → R a' w → R a w)
    (h : Nearest step ask n a w) : R a w := by
  induction h with
  | here _ => exact hrefl _
  | back h hs _ ih => exact hback _ _ _ h hs ih

end Ancestors
