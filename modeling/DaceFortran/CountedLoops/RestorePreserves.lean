/-
# The restored loop and the while loop

The while loop of an accepted site iterates the body and the two updates; the restored loop
sets its variable before each body.  Both go through the same memories, the trip counter's
cell apart, exactly if the recovered bound gives the count and nothing but the update
changes the loop variable.
-/
import Mathlib.Data.List.Flatten
import DaceFortran.CountedLoops.LoopRuns

open List

namespace CountedLoops

variable {A : Addresses} {M : Type}

/-! ## Sites -/

/-- The values defined outside the loop are what their operations compute; no division is by
zero. -/
def Sound (defs : Defs) (env : Env) : Prop :=
  ∀ v op a b, defs v = some (op, a, b) →
    env v = op.eval (a.eval env) (b.eval env) ∧ (op = .div → b.eval env ≠ 0)

/-- A while loop that `matchTripCountedLoop` accepts, with the operations before it. -/
structure LoopSite (A : Addresses) (M : Type) where
  pre : List (Op A M)
  loop : WhileOp A M
  defs : Defs
  found : TripCountedLoop A M
  matched : matchTripCountedLoop pre loop = some found
  /-- No operation uses a value that it or a later one defines. -/
  ssa : ∀ i : Fin pre.length, ∀ v ∈ Op.uses (pre.get i), v ∉ (pre.drop i).flatMap Op.results
  /-- The before region defines each value once. -/
  fresh : (loop.before.flatMap BeforeOp.results).Nodup

/-- A state the block of the loop starts in. -/
structure Entry (s : LoopSite A M) where
  start : Env × Memory M
  sound : Sound s.defs (runOps s.pre start).1

section Site

variable {s : LoopSite A M}

/-- Values and memory when the while loop is reached. -/
def Entry.env (e : Entry s) : Env := (runOps s.pre e.start).1

def Entry.memory (e : Entry s) : Memory M := (runOps s.pre e.start).2

/-- The memory when the restored loop is reached. -/
def Entry.restored (e : Entry s) : Memory M := (runOps (s.found.pre s.pre) e.start).2

def Entry.lb (e : Entry s) : ℤ := s.found.ivInit.eval e.env

def Entry.step (e : Entry s) : ℤ := s.found.step.eval e.env

def Entry.trip (e : Entry s) : ℤ := s.found.tripInit.eval e.env

/-- The body as the while loop runs it in iteration `k`: the memory it starts with. -/
def Entry.iterate (e : Entry s) (k : ℕ) : Memory M := (s.found.iteration e.env)^[k] e.memory

end Site

/-- `max(trip, 0)` iterations, the loop variable at `lb + k * step` in iteration `k` and one step
further in the end. -/
structure CountedRun (d : ℕ) (lb step trip : ℤ) (l : List (Memory M)) (t : Memory M) : Prop where
  count : (l.length : ℤ) = max trip 0
  iterations : ∀ k (h : k < l.length), (l.get ⟨k, h⟩).cells d = lb + k * step
  last : t.cells d = lb + max trip 0 * step

/-- Both loops run, as counted, and each body starts with the same memory in both. -/
def Preserved (s : LoopSite A M) (e : Entry s) : Prop :=
  ∃ l t l' t', s.loop.Runs e.env e.memory l t ∧
    s.found.run s.defs e.env e.restored = some (l', t') ∧
    CountedRun (A.cell s.found.iv) e.lb e.step e.trip l t ∧
    CountedRun (A.cell s.found.iv) e.lb e.step e.trip l' t' ∧
    List.Forall₂ (SameBut (A.cell s.found.trip)) l l' ∧ SameBut (A.cell s.found.trip) t t'

/-- The bound was recovered from a count that is no division. -/
def undivided (defs : Defs) (m : TripCountedLoop A M) : Prop :=
  upperBoundOfTripCount defs m ≠ none ∧ ∀ a b, defOf defs m.tripInit ≠ some (.div, a, b)

/-- When the restored loop is the while loop. -/
structure RestoreExact (s : LoopSite A M) (e : Entry s) : Prop where
  step : e.step ≠ 0
  recovered : undivided s.defs s.found →
    e.step = 1 ∨ e.trip ≤ 0 ∧ (0 < e.step ∨ e.step < e.trip)
  entered : e.memory.cells (A.cell s.found.iv) = e.lb
  separate : 0 < e.trip → s.found.iv ≠ s.found.trip
  continuing : 0 < e.trip → s.loop.goesOn = true ∨ e.trip = 1
  kept : ∀ k < e.trip.toNat,
    (runOps s.found.body (e.env, e.iterate k)).2.cells (A.cell s.found.iv) =
      (e.iterate k).cells (A.cell s.found.iv)

/-! ## The count -/

theorem tdiv_toNat_eq_iff {n s : ℤ} (hs : s ≠ 0) :
    (n.tdiv s).toNat = n.toNat ↔ s = 1 ∨ n ≤ 0 ∧ (0 < s ∨ s < n) := by
  by_cases hn : 0 < n
  · have hcond : (s = 1 ∨ n ≤ 0 ∧ (0 < s ∨ s < n)) ↔ s = 1 := by omega
    rw [hcond]
    constructor
    · intro h
      by_contra hne
      have hlt : n.tdiv s < n := by
        by_cases hpos : 0 < s
        · rw [Int.tdiv_eq_ediv_of_nonneg (by omega)]
          exact Int.ediv_lt_of_lt_mul hpos (lt_mul_of_one_lt_right hn (by omega))
        · have hneg : n.tdiv s = -(n / -s) := by
            rw [← Int.tdiv_eq_ediv_of_nonneg (by omega), Int.tdiv_neg, neg_neg]
          have := Int.ediv_nonneg (a := n) (b := -s) (by omega) (by omega)
          omega
      omega
    · rintro rfl
      rw [Int.tdiv_one]
  · have hn' : n.toNat = 0 := by omega
    rw [hn']
    by_cases hpos : 0 < s
    · have hle : n.tdiv s ≤ 0 := by
        have hneg : n.tdiv s = -(-n / s) := by
          rw [← Int.tdiv_eq_ediv_of_nonneg (by omega), Int.neg_tdiv, neg_neg]
        have := Int.ediv_nonneg (a := -n) (b := s) (by omega) (by omega)
        omega
      constructor
      · intro _
        omega
      · intro _
        omega
    · have hdiv : n.tdiv s = -n / -s := by
        rw [← Int.tdiv_eq_ediv_of_nonneg (by omega), Int.tdiv_neg, Int.neg_tdiv, neg_neg]
      have hnonneg := Int.ediv_nonneg (a := -n) (b := -s) (by omega) (by omega)
      rw [hdiv]
      constructor
      · intro h
        have hz : -n / -s = 0 := by omega
        have : -n < -s := by
          by_contra hge
          have := Int.ediv_pos_of_neg_of_neg (a := n) (b := s)
          have h1 : 1 ≤ -n / -s := (Int.le_ediv_iff_mul_le (by omega)).2 (by omega)
          omega
        omega
      · intro h
        have hz : -n / -s = 0 := Int.ediv_eq_zero_of_lt (by omega) (by omega)
        omega

variable {defs : Defs} {env : Env}

theorem defOf_eval (hs : Sound defs env) {x a b : Operand} {op : BinOp}
    (h : defOf defs x = some (op, a, b)) :
    x.eval env = op.eval (a.eval env) (b.eval env) := by
  cases x with
  | lit k => cases h
  | val v => exact (hs v op a b h).1

/-- The recovered bound, with the count it was recovered from. -/
theorem upperBoundOfTripCount_eq (hs : Sound defs env)
    {m : TripCountedLoop A M} {ub : Operand} (h : upperBoundOfTripCount defs m = some ub) :
    ∃ count, dividend defs m = some count ∧
      count.eval env = ub.eval env - m.ivInit.eval env + m.step.eval env := by
  unfold upperBoundOfTripCount at h
  rw [Option.bind_eq_some_iff] at h
  obtain ⟨count, hc, h⟩ := h
  refine ⟨count, hc, ?_⟩
  split at h
  · rename_i a b hadd
    split_ifs at h with hb
    split at h
    · rename_i ub' lb hsub
      split_ifs at h with hl
      simp only [Option.some.injEq] at h
      rw [defOf_eval hs hadd, hb, BinOp.eval, defOf_eval hs hsub, hl, h]
      rfl
    · cases h
  · cases h

/-- The restored loop has the right count exactly if a count without division comes from a unit
step, or from none to run. -/
theorem doCount_eq_iff (hs : Sound defs env) (m : TripCountedLoop A M)
    (hstep : m.step.eval env ≠ 0) :
    doCount (m.ivInit.eval env) (m.upper defs env) (m.step.eval env) =
        some (m.tripInit.eval env).toNat ↔
      (undivided defs m → m.step.eval env = 1 ∨
        m.tripInit.eval env ≤ 0 ∧
          (0 < m.step.eval env ∨ m.step.eval env < m.tripInit.eval env)) := by
  unfold doCount
  rw [if_neg hstep, Option.some.injEq]
  cases hu : upperBoundOfTripCount defs m with
  | none =>
    have hmul : m.ivInit.eval env + (m.tripInit.eval env - 1) * m.step.eval env -
        m.ivInit.eval env + m.step.eval env = m.tripInit.eval env * m.step.eval env := by ring
    simp only [TripCountedLoop.upper, hu, hmul]
    rw [Int.mul_tdiv_cancel _ hstep]
    simp [undivided, hu]
  | some ub =>
    obtain ⟨count, hc, he⟩ := upperBoundOfTripCount_eq hs hu
    simp only [TripCountedLoop.upper, hu]
    rw [← he]
    unfold dividend at hc
    split at hc
    · rename_i a b hdiv
      split_ifs at hc with hb
      simp only [Option.some.injEq] at hc
      have htrip : m.tripInit.eval env = (count.eval env).tdiv (m.step.eval env) := by
        rw [defOf_eval hs hdiv, hb, hc]
        rfl
      rw [htrip]
      constructor
      · intro _ hun
        exact absurd hdiv (hun.2 a b)
      · intro _
        rfl
    · rename_i hno
      simp only [Option.some.injEq] at hc
      have hun : undivided defs m := by
        refine ⟨by simp [hu], ?_⟩
        intro a b hdiv
        exact hno a b hdiv
      rw [← hc, tdiv_toNat_eq_iff hstep]
      exact ⟨fun h _ => h, fun h => h hun⟩

/-! ## Entering the loop -/

section Site

variable {s : LoopSite A M}

/-- The values an operation uses are not defined after it. -/
theorem LoopSite.uses_kept (s : LoopSite A M) {l₁ : List (Op A M)} {o : Op A M} {l₂ : List (Op A M)}
    (h : s.pre = l₁ ++ o :: l₂) : ∀ v ∈ o.uses, v ∉ l₂.flatMap Op.results := by
  intro v hv hm
  have hlt : l₁.length < s.pre.length := by simp [h]
  have hget : s.pre.get ⟨l₁.length, hlt⟩ = o := by simp [h]
  have hdrop : s.pre.drop l₁.length = o :: l₂ := by simp [h]
  have := s.ssa ⟨l₁.length, hlt⟩ v (by rw [hget]; exact hv)
  apply this
  rw [hdrop, flatMap_cons]
  exact mem_append_right _ hm

theorem LoopSite.accepted (s : LoopSite A M) :
    ∃ b, Accepted s.pre s.loop s.found b ∧ b.cmp ∉ b.body.results := by
  obtain ⟨b, h⟩ := CountedLoops.accepted s.matched
  refine ⟨b, h, ?_⟩
  intro hc
  have hsub : ((s.loop.before.filter fun o => !o.isConst).flatMap BeforeOp.results).Nodup :=
    s.fresh.sublist (filter_sublist.flatMap _)
  rw [(matchBefore_eq h.before).1] at hsub
  simp only [flatMap_append, flatMap_cons, flatMap_nil, BeforeOp.results,
    append_nil] at hsub
  have hleft := (nodup_append.1 hsub).1
  rw [nodup_append] at hleft
  have hright := hleft.2.1
  rw [nodup_append] at hright
  exact hright.2.2 b.cmp mem_cons_self b.cmp hc rfl

/-- The two memories differ in the trip counter, which holds the count. -/
theorem Entry.memory_eq (e : Entry s) :
    e.memory = e.restored.set (A.cell s.found.trip) e.trip := by
  obtain ⟨b, h, -⟩ := s.accepted
  have ht := h.tripInit
  unfold tripInitOf at ht
  split at ht
  · rename_i x q hf
    simp only [Option.some.injEq] at ht
    obtain ⟨l₁, l₂, hpre, hl₁, hq, hl₂⟩ := filter_eq_cons_iff.1 hf
    have hq' : q = s.found.trip := by simpa [Op.touches] using hq
    have hfree₁ : ∀ o ∈ l₁, Op.touches s.found.trip o = false := by
      intro o ho
      simpa using hl₁ o ho
    have hfree₂ : ∀ o ∈ l₂, Op.touches s.found.trip o = false := by
      intro o ho
      simpa using filter_eq_nil_iff.1 hl₂ o ho
    have hnew : s.found.pre s.pre = l₁ ++ l₂ := by
      unfold TripCountedLoop.pre
      rw [hpre, filter_append, filter_cons_of_neg (by simp [hq]),
        filter_eq_self.2 (by intro o ho; simp [hfree₁ o ho]),
        filter_eq_self.2 (by intro o ho; simp [hfree₂ o ho])]
    set r := runOps l₁ e.start with hr
    have hrun : runOps s.pre e.start =
        ((runOps l₂ r).1, (runOps l₂ r).2.set (A.cell s.found.trip) (x.eval r.1)) := by
      rw [hpre, runOps_append, runOps_cons, ← hr, hq']
      exact runOps_set h.hidden l₂ hfree₂ r.1 r.2 (x.eval r.1)
    -- the stored operand keeps its value up to the loop
    have hx : x.eval (runOps l₂ r).1 = x.eval r.1 := eval_keeps l₂ (s.uses_kept hpre) r
    unfold Entry.memory Entry.restored Entry.trip Entry.env
    rw [hrun, hnew, runOps_append, ← hr, ← ht, hx]
  · cases ht

/-- The trip counter holds the count when the while loop starts. -/
theorem Entry.memory_trip (e : Entry s) : e.memory.cells (A.cell s.found.trip) = e.trip := by
  rw [e.memory_eq, Memory.set_cells_same]

/-- With its first value in the loop variable, the memories differ in the trip counter only. -/
theorem Entry.restored_same (e : Entry s) (he : e.memory.cells (A.cell s.found.iv) = e.lb) :
    SameBut (A.cell s.found.trip) e.memory (e.restored.set (A.cell s.found.iv) e.lb) := by
  rw [← he, e.memory_eq]
  by_cases hc : A.cell s.found.iv = A.cell s.found.trip
  · refine ⟨e.trip, ?_⟩
    rw [hc, Memory.set_cells_same, Memory.set_set]
  · refine ⟨e.restored.cells (A.cell s.found.trip), ?_⟩
    rw [Memory.set_cells_other _ _ hc, Memory.set_self, Memory.set_set, Memory.set_self]

theorem Entry.run_eq (e : Entry s) :
    s.found.run s.defs e.env e.restored =
      (doCount e.lb (s.found.upper s.defs e.env) e.step).map fun n =>
        ((doIterations e.env s.found.iv e.step s.found.body n e.lb e.restored).1,
          (doIterations e.env s.found.iv e.step s.found.body n e.lb e.restored).2.set
            (A.cell s.found.iv) (e.lb + max e.trip 0 * e.step)) := rfl

theorem doCount_step {lb ub step : ℤ} {n : ℕ} (h : doCount lb ub step = some n) : step ≠ 0 := by
  rintro rfl
  cases h

/-! ## The loop is preserved -/

variable {e : Entry s}

/-- Under the condition both loops run as counted. -/
theorem preserved_of_exact (hx : RestoreExact s e) : Preserved s e := by
  obtain ⟨b, h, hfresh⟩ := s.accepted
  set n := e.trip.toNat with hn
  have hmax : max e.trip 0 = (n : ℤ) := by omega
  have hcount : doCount e.lb (s.found.upper s.defs e.env) e.step = some n :=
    (doCount_eq_iff e.sound s.found hx.step).2 hx.recovered
  obtain ⟨l, t, hruns, hlen⟩ := h.runs_count hfresh e.env n e.memory (by rw [e.memory_trip])
    (fun hpos => hx.separate (by omega))
    (by
      by_cases hpos : 0 < e.trip
      · rcases hx.continuing hpos with hgo | hone
        · exact Or.inl hgo
        · exact Or.inr (by omega)
      · exact Or.inr (by omega))
  obtain ⟨hl, ht⟩ := h.runs_iterates hfresh hruns
  rw [hlen] at hl ht
  obtain ⟨hfollow, hend⟩ := h.doIterations_follows e.env n e.lb e.memory e.restored
    (fun hpos => hx.separate (by omega)) hx.kept hx.entered (e.restored_same hx.entered)
  set r := doIterations e.env s.found.iv e.step s.found.body n e.lb e.restored with hr
  have hrun : s.found.run s.defs e.env e.restored =
      some (r.1, r.2.set (A.cell s.found.iv) (e.lb + max e.trip 0 * e.step)) := by
    rw [e.run_eq, hcount]
    rfl
  have hrlen : r.1.length = n := doIterations_length _ _ _ _ _ _ _
  have hcounted : CountedRun (A.cell s.found.iv) e.lb e.step e.trip r.1
      (r.2.set (A.cell s.found.iv) (e.lb + max e.trip 0 * e.step)) :=
    ⟨by rw [hrlen, hmax], fun k hk => doIterations_iv _ _ _ _ _ _ _ k hk,
      Memory.set_cells_same _ _ _⟩
  rw [← hl] at hfollow
  rw [← ht, ← hmax] at hend
  refine ⟨l, t, _, _, hruns, hrun, ⟨by rw [hlen, hmax], ?_, ?_⟩, hcounted, hfollow, hend⟩
  · intro k hk
    have hiv := h.iv_cell (hx.separate (by omega))
    have hk' : k < r.1.length := by omega
    rw [← hcounted.iterations k hk']
    exact ((hfollow.get hk hk').cells hiv).symm
  · by_cases hpos : 0 < e.trip
    · rw [← hcounted.last]
      exact (hend.cells (h.iv_cell (hx.separate hpos))).symm
    · have hn0 : n = 0 := by omega
      rw [ht, hmax, hn0]
      simpa using hx.entered

/-- A run of the while loop as counted has the loop variable one step further after each
iteration. -/
theorem iterate_iv {l : List (Memory M)} {t : Memory M}
    (hl : l = (List.range l.length).map e.iterate) (ht : t = e.iterate l.length)
    (hc : CountedRun (A.cell s.found.iv) e.lb e.step e.trip l t) (k : ℕ) (hk : k ≤ l.length) :
    (e.iterate k).cells (A.cell s.found.iv) = e.lb + k * e.step := by
  rcases Nat.lt_or_eq_of_le hk with hlt | rfl
  · rw [← hc.iterations k hlt]
    congr 1
    rw [get_eq_getElem, getElem_of_eq hl]
    simp
  · rw [← ht, hc.last, hc.count]

/-- Both loops run as counted only under the condition. -/
theorem exact_of_preserved (hp : Preserved s e) : RestoreExact s e := by
  obtain ⟨b, h, hfresh⟩ := s.accepted
  obtain ⟨l, t, l', t', hruns, hrun, hcounted, hcounted', -, -⟩ := hp
  obtain ⟨hl, ht⟩ := h.runs_iterates hfresh hruns
  have hlen := hcounted.count
  have hiv := iterate_iv (e := e) hl ht hcounted
  -- the count of the restored loop
  rw [e.run_eq, Option.map_eq_some_iff] at hrun
  obtain ⟨n, hn, hrun⟩ := hrun
  have hstep : e.step ≠ 0 := doCount_step hn
  have hn' : n = e.trip.toNat := by
    have hc := hcounted'.count
    rw [← (Prod.mk.inj hrun).1, doIterations_length] at hc
    omega
  have hentered : e.memory.cells (A.cell s.found.iv) = e.lb := by
    have := hiv 0 (Nat.zero_le _)
    simpa [Entry.iterate] using this
  have hnext : ∀ k, k < e.trip.toNat →
    (s.found.iteration e.env (e.iterate k)).cells (A.cell s.found.iv) =
      (e.iterate k).cells (A.cell s.found.iv) + e.step := by
    intro k hk
    have h₀ := hiv k (by omega)
    have h₁ := hiv (k + 1) (by omega)
    rw [Entry.iterate, Function.iterate_succ_apply'] at h₁
    rw [h₀]
    refine h₁.trans ?_
    push_cast
    ring
  have hseparate : 0 < e.trip → s.found.iv ≠ s.found.trip := by
    intro hpos he
    have h₀ := hnext 0 (by omega)
    have h₁ := h.iteration_same he e.env (e.iterate 0)
    rw [h₀] at h₁
    have : (e.iterate 0).cells (A.cell s.found.iv) + e.step =
      (e.iterate 0).cells (A.cell s.found.iv) - 1 + e.step := h₁
    omega
  refine ⟨hstep, ?_, hentered, hseparate, ?_, ?_⟩
  · exact (doCount_eq_iff e.sound s.found hstep).1 (hn.trans (congrArg some hn'))
  · intro hpos
    by_cases hone : e.trip = 1
    · exact Or.inr hone
    · exact Or.inl (h.goesOn_of_runs hfresh hruns (by omega))
  · intro k hk
    have h₀ := hnext k hk
    have h₁ := h.iteration_iv (hseparate (by omega)) e.env (e.iterate k)
    rw [h₀] at h₁
    exact (add_right_cancel h₁).symm

/-- **The restored loop is the while loop exactly if the step is not zero, a bound recovered without
a division has a unit step or no iteration, and nothing but the update of an iteration changes the
loop variable.** -/
theorem restore_preserved_iff (s : LoopSite A M) (e : Entry s) : Preserved s e ↔ RestoreExact s e :=
  ⟨exact_of_preserved, preserved_of_exact⟩

end Site

/-! ## A count without a division -/

/-- The trip counter at 0, the loop variable at 1. -/
def twoCells : Addresses where
  cell := id
  alloca := fun _ => true
  taken := fun _ => false
  own := fun _ _ _ _ h => h

/-- Before the loop: `(5 - 1) + 2` is stored in the trip counter and 1 in the loop variable. -/
def undividedPre : List (Op twoCells Unit) :=
  [.bin .sub 10 (.lit 5) (.lit 1), .bin .add 11 (.val 10) (.lit 2), .store (.val 11) 0,
    .store (.lit 1) 1]

/-- The loop adds 2 to the loop variable in each iteration. -/
def undividedLoop : WhileOp twoCells Unit where
  results := 0
  inits := []
  before :=
    [.op (.load 20 0), .cmpi .sgt 21 (.val 20) (.lit 0),
      .ifOp ⟨.val 21, [], [.load 22 0, .bin .sub 23 (.val 22) (.lit 1), .store (.val 23) 0,
        .load 24 1, .bin .add 25 (.val 24) (.lit 2), .store (.val 25) 1], [], none⟩]
  cond := .val 21
  condArgs := []
  after := []

def undividedDefs : Defs
  | 10 => some (.sub, .lit 5, .lit 1)
  | 11 => some (.add, .val 10, .lit 2)
  | _ => none

/-- A loop of six iterations; the restored one has three. -/
def undividedSite : LoopSite twoCells Unit where
  pre := undividedPre
  loop := undividedLoop
  defs := undividedDefs
  found := ⟨0, .val 11, 1, .lit 1, .lit 2, []⟩
  matched := by rfl
  ssa := by decide
  fresh := by decide

def undividedEntry : Entry undividedSite where
  start := (fun _ => 0, ⟨fun _ => 0, ()⟩)
  sound := by
    intro v op a b h
    unfold undividedSite undividedDefs at h
    simp only at h
    split at h
    · cases h
      decide
    · cases h
      decide
    · cases h

/-- The loop of six iterations is not preserved. -/
theorem not_preserved_undivided : ¬ Preserved undividedSite undividedEntry := by
  intro hp
  obtain ⟨l, t, l', t', -, hrun, -, hc, -, -⟩ := hp
  have hn : l'.length = 3 := by
    cases hrun
    rfl
  have := hc.count
  rw [hn] at this
  exact absurd this (by decide)

end CountedLoops
