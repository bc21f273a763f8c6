/-
# Runs of a while loop

A loop with a guard `c` and an iteration `f` on an arbitrary state type, and
the list of observations its iterations leave.  A run exists exactly when the
guard first fails after finitely many iterations, and it is then determined by
the iterates of `f` (`runs_iff_iterate`), so a claim about a terminating loop
reduces to a fact about `f^[k]`.
-/
import Mathlib.Logic.Function.Iterate
import Mathlib.Data.List.GetD

namespace WhileLoop

variable {S α : Type*} {c : S → Prop} {f : S → S} {obs : S → α}

/-- `Runs c f obs s l t`: from `s` the loop stops in `t`, and `l` lists what its
iterations observed, in order. -/
inductive Runs (c : S → Prop) (f : S → S) (obs : S → α) : S → List α → S → Prop
  | done {s : S} : ¬ c s → Runs c f obs s [] s
  | step {s t : S} {l : List α} : c s → Runs c f obs (f s) l t → Runs c f obs s (obs s :: l) t

variable {l : List α} {s t : S}

/-- **Runs are finite iterations of the body.** -/
theorem runs_iff_iterate :
    Runs c f obs s l t ↔
      (∀ k, k < l.length → c (f^[k] s)) ∧ ¬ c (f^[l.length] s) ∧
        l = (List.range l.length).map (fun k => obs (f^[k] s)) ∧ t = f^[l.length] s := by
  constructor
  · intro h
    induction h with
    | done hc => exact ⟨fun k hk => absurd hk (by simp), by simpa using hc, rfl, rfl⟩
    | @step s t l hc _ ih =>
        obtain ⟨hguard, hstop, hobs, hfinal⟩ := ih
        refine ⟨fun k hk => ?_, by simpa using hstop, ?_, by simpa using hfinal⟩
        · cases k with
          | zero => simpa using hc
          | succ k => simpa using hguard k (by simpa using hk)
        · have htail : l = (List.range l.length).map (fun k => obs (f^[k + 1] s)) := hobs
          simp only [List.length_cons, List.range_succ_eq_map, List.map_cons, List.map_map]
          exact congrArg₂ List.cons rfl htail
  · intro h
    induction l generalizing s with
    | nil =>
        obtain ⟨-, hstop, -, rfl⟩ := h
        exact Runs.done (by simpa using hstop)
    | cons a l ih =>
        obtain ⟨hguard, hstop, hobs, hfinal⟩ := h
        simp only [List.length_cons, List.range_succ_eq_map, List.map_cons, List.map_map,
          List.cons.injEq] at hobs
        have hrest : Runs c f obs (f s) l t := by
          refine ih ⟨fun k hk => ?_, by simpa using hstop, ?_, by simpa using hfinal⟩
          · simpa using hguard (k + 1) (by simpa using hk)
          · simpa [Function.comp_def] using hobs.2
        have hhead : a = obs s := by simpa using hobs.1
        rw [hhead]
        exact Runs.step (by simpa using hguard 0 (by simp)) hrest

/-- A loop whose guard holds for the first `n` iterates and fails at the next
runs exactly `n` iterations. -/
theorem runs_of_iterate {s : S} (n : ℕ) (hguard : ∀ k, k < n → c (f^[k] s))
    (hstop : ¬ c (f^[n] s)) :
    Runs c f obs s ((List.range n).map (fun k => obs (f^[k] s))) (f^[n] s) := by
  rw [runs_iff_iterate]
  simpa using ⟨hguard, hstop⟩

/-- A run's guard holds before every iteration it made. -/
theorem Runs.guard (h : Runs c f obs s l t) {k : ℕ}
    (hk : k < l.length) : c (f^[k] s) :=
  (runs_iff_iterate.mp h).1 k hk

/-- A run's guard fails after its last iteration. -/
theorem Runs.stop (h : Runs c f obs s l t) :
    ¬ c (f^[l.length] s) :=
  (runs_iff_iterate.mp h).2.1

/-- The `k`-th observation of a run is made in the `k`-th iterate. -/
theorem Runs.getElem (h : Runs c f obs s l t) {k : ℕ}
    (hk : k < l.length) : l[k] = obs (f^[k] s) := by
  have hl := (runs_iff_iterate.mp h).2.2.1
  have hk' : k < ((List.range l.length).map (fun k => obs (f^[k] s))).length := by
    simpa using hk
  calc l[k] = ((List.range l.length).map (fun k => obs (f^[k] s)))[k] := by congr 1
    _ = obs (f^[k] s) := by simp

end WhileLoop
