/-
# Runs of the two loops

A run of the while loop iterates the body and the updates; the counted loop, which sets its
variable before each body, follows it from memory to memory for as long as the body keeps
that variable.
-/
import Mathlib.Algebra.Order.Ring.Int
import Mathlib.Tactic.Ring
import DaceFortran.CountedLoops.RestoreCountedLoops

namespace CountedLoops

variable {A : Addresses} {M : Type}

/-! ## Memories that differ in one cell -/

/-- The memories are the same but for one cell. -/
def SameBut (c : ℕ) (m m' : Memory M) : Prop := ∃ x, m' = m.set c x

theorem SameBut.cells {c d : ℕ} {m m' : Memory M} (h : SameBut c m m') (hd : d ≠ c) :
    m'.cells d = m.cells d := by
  obtain ⟨x, rfl⟩ := h
  exact Memory.set_cells_other m x hd

theorem SameBut.runOps {p : ℕ} (hp : A.Private p) {ops : List (Op A M)}
    (ho : ∀ o ∈ ops, Op.touches p o = false) (env : Env) {m m' : Memory M}
    (h : SameBut (A.cell p) m m') :
    SameBut (A.cell p) (runOps ops (env, m)).2 (runOps ops (env, m')).2 := by
  obtain ⟨x, rfl⟩ := h
  exact ⟨x, by rw [runOps_set hp ops ho]⟩

/-- A store to another cell, after one to the cell itself on the one side. -/
theorem SameBut.set_of_set {c d : ℕ} {m m' : Memory M} (h : SameBut c m m') (hd : d ≠ c) (x y : ℤ) :
    SameBut c ((m.set c x).set d y) (m'.set d y) := by
  obtain ⟨z, rfl⟩ := h
  refine ⟨z, ?_⟩
  rw [Memory.set_comm m x y hd.symm, Memory.set_set, Memory.set_comm m z y hd.symm]

section Loop

variable {pre : List (Op A M)} {w : WhileOp A M} {m : TripCountedLoop A M} {b : BeforeShape A M}

/-! ## One iteration -/

theorem Accepted.iv_cell (h : Accepted pre w m b) (hne : m.iv ≠ m.trip) :
    A.cell m.iv ≠ A.cell m.trip := h.hidden.cell_ne hne

/-- An iteration takes one from the trip counter. -/
theorem Accepted.iteration_trip (h : Accepted pre w m b) (hne : m.iv ≠ m.trip) (env : Env)
    (mem : Memory M) :
    (m.iteration env mem).cells (A.cell m.trip) = mem.cells (A.cell m.trip) - 1 := by
  simp only [TripCountedLoop.iteration]
  rw [Memory.set_cells_other _ _ (h.iv_cell hne).symm, Memory.set_cells_same,
    runOps_cells h.hidden m.body h.untouched]

/-- It leaves the loop variable one step further than the body did. -/
theorem Accepted.iteration_iv (h : Accepted pre w m b) (hne : m.iv ≠ m.trip) (env : Env)
    (mem : Memory M) :
    (m.iteration env mem).cells (A.cell m.iv) =
      (runOps m.body (env, mem)).2.cells (A.cell m.iv) + m.step.eval env := by
  simp only [TripCountedLoop.iteration]
  rw [Memory.set_cells_same, Memory.set_cells_other _ _ (h.iv_cell hne)]

/-- A trip counter that is its own loop variable falls behind by one. -/
theorem Accepted.iteration_same (h : Accepted pre w m b) (he : m.iv = m.trip) (env : Env)
    (mem : Memory M) :
    (m.iteration env mem).cells (A.cell m.iv) =
      mem.cells (A.cell m.iv) - 1 + m.step.eval env := by
  simp only [TripCountedLoop.iteration]
  rw [Memory.set_cells_same, he, Memory.set_cells_same, runOps_cells h.hidden m.body h.untouched]

/-! ## The while loop -/

variable {mem t : Memory M} {l : List (Memory M)}

/-- Every run iterates the body and the updates. -/
theorem Accepted.runs_iterates (h : Accepted pre w m b)
    (hfresh : b.cmp ∉ b.body.results) {env : Env}
    (hr : w.Runs env mem l t) :
    l = (List.range l.length).map (fun k => (m.iteration env)^[k] mem) ∧
      t = (m.iteration env)^[l.length] mem := by
  induction hr with
  | @stop mem hc =>
    by_cases ht : 0 < mem.cells (A.cell m.trip)
    · obtain ⟨hm, he, -⟩ := h.turn_go hfresh env mem ht
      rw [hm, he]
      exact ⟨rfl, rfl⟩
    · obtain ⟨hm, he, -⟩ := h.turn_stop hfresh env mem (by omega)
      rw [hm, he]
      exact ⟨rfl, rfl⟩
  | @next mem t l hc hr ih =>
    have ht : 0 < mem.cells (A.cell m.trip) := by
      by_contra hle
      rw [(h.turn_stop hfresh env mem (by omega)).2.2] at hc
      cases hc
    obtain ⟨hm, he, -⟩ := h.turn_go hfresh env mem ht
    rw [h.after, hm, runOps_nil] at ih
    rw [he]
    obtain ⟨hl, hend⟩ := ih
    constructor
    · show mem :: l = (List.range (mem :: l).length).map _
      rw [List.length_cons, List.range_succ_eq_map, List.map_cons, List.map_map]
      exact congrArg (mem :: ·) hl
    · show t = (m.iteration env)^[(mem :: l).length] mem
      exact hend

/-- A run with a second iteration went on after the first. -/
theorem Accepted.goesOn_of_runs (h : Accepted pre w m b)
    (hfresh : b.cmp ∉ b.body.results) {env : Env}
    (hr : w.Runs env mem l t) (hl : 1 < l.length) :
    w.goesOn = true := by
  cases hr with
  | stop hc =>
    exfalso
    by_cases ht : 0 < mem.cells (A.cell m.trip)
    · rw [(h.turn_go hfresh env mem ht).2.1] at hl
      exact absurd hl (Nat.lt_irrefl 1)
    · rw [(h.turn_stop hfresh env mem (by omega)).2.1] at hl
      exact absurd hl (Nat.not_lt_zero 1)
  | next hc hr =>
    by_cases ht : 0 < mem.cells (A.cell m.trip)
    · rw [← (h.turn_go hfresh env mem ht).2.2]
      exact hc
    · rw [(h.turn_stop hfresh env mem (by omega)).2.2] at hc
      cases hc

/-- The loop runs as often as the trip counter says. -/
theorem Accepted.runs_count (h : Accepted pre w m b) (hfresh : b.cmp ∉ b.body.results) (env : Env)
    (n : ℕ) (mem : Memory M) (hn : (mem.cells (A.cell m.trip)).toNat = n)
    (hne : 0 < n → m.iv ≠ m.trip) (hgo : w.goesOn = true ∨ n ≤ 1) :
    ∃ l t, w.Runs env mem l t ∧ l.length = n := by
  induction n generalizing mem with
  | zero =>
    obtain ⟨-, he, hc⟩ := h.turn_stop hfresh env mem (by omega)
    exact ⟨_, _, .stop hc, by rw [he]; rfl⟩
  | succ n ih =>
    have hiv := hne (by omega)
    obtain ⟨hm, he, hc⟩ := h.turn_go hfresh env mem (by omega)
    cases hg : w.goesOn with
    | false =>
      refine ⟨_, _, .stop (hc.trans hg), ?_⟩
      have hn1 : n = 0 := by
        rcases hgo with hgo | hgo
        · rw [hg] at hgo
          cases hgo
        · omega
      rw [he, hn1]
      rfl
    | true =>
      have hnext : ((m.iteration env mem).cells (A.cell m.trip)).toNat = n := by
        rw [h.iteration_trip hiv]
        omega
      obtain ⟨l, t, hr, hl⟩ := ih (m.iteration env mem) hnext (fun _ => hiv) (Or.inl hg)
      refine ⟨(w.turn env mem).entries ++ l, t, .next (hc.trans hg) ?_, ?_⟩
      · rw [h.after, hm]
        exact hr
      · rw [he, List.length_append, hl]
        exact Nat.add_comm 1 n

/-! ## The counted loop -/

theorem doIterations_length (env : Env) (iv : ℕ) (step : ℤ) (body : List (Op A M)) (n : ℕ) (i : ℤ)
    (mem : Memory M) : (doIterations env iv step body n i mem).1.length = n := by
  induction n generalizing i mem with
  | zero => rfl
  | succ n ih =>
    show (doIterations env iv step body n (i + step) _).1.length + 1 = n + 1
    rw [ih]

/-- The loop variable holds the induction variable when a body starts. -/
theorem doIterations_iv (env : Env) (iv : ℕ) (step : ℤ) (body : List (Op A M)) (n : ℕ) (i : ℤ)
    (mem : Memory M) (k : ℕ) (hk : k < (doIterations env iv step body n i mem).1.length) :
    ((doIterations env iv step body n i mem).1.get ⟨k, hk⟩).cells (A.cell iv) = i + k * step := by
  induction n generalizing i mem k with
  | zero => exact absurd hk (Nat.not_lt_zero k)
  | succ n ih =>
    cases k with
    | zero =>
      show (mem.set (A.cell iv) i).cells (A.cell iv) = _
      rw [Memory.set_cells_same]
      simp
    | succ k =>
      have := ih (i + step) (runOps body (env, mem.set (A.cell iv) i)).2 k
        (Nat.lt_of_succ_lt_succ hk)
      rw [show i + ((k + 1 : ℕ) : ℤ) * step = i + step + k * step by push_cast; ring]
      exact this

/-- While the body keeps the loop variable, both loops go through the same memories. -/
theorem Accepted.doIterations_follows (h : Accepted pre w m b) (env : Env) (n : ℕ) (i : ℤ)
    (mem mem' : Memory M) (hne : 0 < n → m.iv ≠ m.trip)
    (hkept : ∀ k < n, (runOps m.body (env, (m.iteration env)^[k] mem)).2.cells (A.cell m.iv) =
      ((m.iteration env)^[k] mem).cells (A.cell m.iv))
    (hi : mem.cells (A.cell m.iv) = i)
    (hsame : SameBut (A.cell m.trip) mem (mem'.set (A.cell m.iv) i)) :
    List.Forall₂ (SameBut (A.cell m.trip)) ((List.range n).map fun k => (m.iteration env)^[k] mem)
        (doIterations env m.iv (m.step.eval env) m.body n i mem').1 ∧
      SameBut (A.cell m.trip) ((m.iteration env)^[n] mem)
        ((doIterations env m.iv (m.step.eval env) m.body n i mem').2.set (A.cell m.iv)
          (i + n * m.step.eval env)) := by
  induction n generalizing i mem mem' with
  | zero =>
    refine ⟨.nil, ?_⟩
    simpa [doIterations] using hsame
  | succ n ih =>
    have hiv := hne (by omega)
    have hbody := hsame.runOps h.hidden h.untouched env
    have hfirst : (runOps m.body (env, mem)).2.cells (A.cell m.iv) = i := by
      rw [← hi]
      exact hkept 0 (by omega)
    have hnext : (m.iteration env mem).cells (A.cell m.iv) = i + m.step.eval env := by
      rw [h.iteration_iv hiv, hfirst]
    have hiter : m.iteration env mem =
        ((runOps m.body (env, mem)).2.set (A.cell m.trip)
          ((runOps m.body (env, mem)).2.cells (A.cell m.trip) - 1)).set (A.cell m.iv)
          (i + m.step.eval env) := by
      simp only [TripCountedLoop.iteration]
      rw [Memory.set_cells_other _ _ (h.iv_cell hiv), hfirst]
    obtain ⟨hl, hend⟩ := ih (i + m.step.eval env) (m.iteration env mem)
      (runOps m.body (env, mem'.set (A.cell m.iv) i)).2 (fun _ => hiv)
      (fun k hk => hkept (k + 1) (by omega)) hnext
      (by rw [hiter]; exact hbody.set_of_set (h.iv_cell hiv) _ _)
    constructor
    · rw [List.range_succ_eq_map, List.map_cons, List.map_map]
      exact .cons hsame hl
    · rw [show i + ((n + 1 : ℕ) : ℤ) * m.step.eval env =
        i + m.step.eval env + n * m.step.eval env by push_cast; ring]
      exact hend

end Loop

end CountedLoops
