/-
# What operations leave alone

The cell of an alloca that nothing takes changes only through operations that touch it, and
every other operation runs the same whatever that cell holds; a run depends on the values
its operations use and changes the values they define.
-/
import DaceFortran.CountedLoops.LoopOps

namespace CountedLoops

open Function

variable {A : Addresses} {M : Type}

/-! ## Memory -/

variable (m : Memory M)

@[simp] theorem Memory.set_cells_same (c : ℕ) (x : ℤ) : (m.set c x).cells c = x := by
  show update m.cells c x c = x
  rw [update_self]

variable {c d p v : ℕ}

theorem Memory.set_cells_other (x : ℤ) (h : d ≠ c) :
    (m.set c x).cells d = m.cells d := by
  show update m.cells c x d = m.cells d
  rw [update_of_ne h]

@[simp] theorem Memory.set_set (c : ℕ) (x y : ℤ) :
    (m.set c x).set c y = m.set c y := by
  simp [Memory.set]

theorem Memory.set_comm (x y : ℤ) (h : c ≠ d) :
    (m.set c x).set d y = (m.set d y).set c x := by
  simp only [Memory.set]
  rw [update_comm h]

@[simp] theorem Memory.set_self (c : ℕ) : m.set c (m.cells c) = m := by
  simp [Memory.set]

/-! ## The cell of an alloca -/

/-- An alloca that only the listed loads and stores reach. -/
def Addresses.Private (A : Addresses) (p : ℕ) : Prop := A.alloca p = true ∧ A.taken p = false

theorem Addresses.Private.cell_ne {q : ℕ} (hp : A.Private p) (hq : q ≠ p) :
    A.cell q ≠ A.cell p := by
  intro h
  exact hq (A.own p hp.1 hp.2 q h)

/-- An operation that does not touch the alloca runs the same whatever its cell holds, and keeps
it. -/
theorem Op.run_set (hp : A.Private p) (o : Op A M) (ho : o.touches p = false) (env : Env)
    (m : Memory M) (x : ℤ) :
    o.run (env, m.set (A.cell p) x) =
      ((o.run (env, m)).1, (o.run (env, m)).2.set (A.cell p) x) := by
  cases o with
  | const => rfl
  | bin op v a b => rfl
  | load v q =>
    have hq : q ≠ p := by simpa [Op.touches] using ho
    show (update env v ((m.set (A.cell p) x).cells (A.cell q)), m.set (A.cell p) x) = _
    rw [Memory.set_cells_other m x (hp.cell_ne hq)]
    rfl
  | store y q =>
    have hq : q ≠ p := by simpa [Op.touches] using ho
    show (env, (m.set (A.cell p) x).set (A.cell q) (y.eval env)) = _
    rw [Memory.set_comm m x (y.eval env) (hp.cell_ne hq).symm]
    rfl
  | other o =>
    show (update env o.result (o.effect env (m.set (A.cell p) x)).1, _) = _
    rw [o.effect_frame p hp.1 hp.2 env m x]
    rfl

theorem runOps_nil (s : Env × Memory M) : runOps ([] : List (Op A M)) s = s := rfl

theorem runOps_cons (o : Op A M) (ops : List (Op A M)) (s : Env × Memory M) :
    runOps (o :: ops) s = runOps ops (o.run s) := rfl

theorem runOps_append (ops ops' : List (Op A M)) (s : Env × Memory M) :
    runOps (ops ++ ops') s = runOps ops' (runOps ops s) := by
  simp [runOps]

theorem runOps_set (hp : A.Private p) (ops : List (Op A M))
    (ho : ∀ o ∈ ops, Op.touches p o = false) (env : Env) (m : Memory M) (x : ℤ) :
    runOps ops (env, m.set (A.cell p) x) =
      ((runOps ops (env, m)).1, (runOps ops (env, m)).2.set (A.cell p) x) := by
  induction ops generalizing env m with
  | nil => rfl
  | cons o ops ih =>
    rw [runOps_cons, Op.run_set hp o (ho o List.mem_cons_self), runOps_cons]
    exact ih (fun o' h => ho o' (List.mem_cons_of_mem _ h)) _ _

/-- Operations that do not touch the alloca keep its cell. -/
theorem runOps_cells (hp : A.Private p) (ops : List (Op A M))
    (ho : ∀ o ∈ ops, Op.touches p o = false) (env : Env) (m : Memory M) :
    (runOps ops (env, m)).2.cells (A.cell p) = m.cells (A.cell p) := by
  have h := runOps_set hp ops ho env m (m.cells (A.cell p))
  rw [Memory.set_self] at h
  rw [congrArg Prod.snd h]
  simp

/-! ## The values of a run -/

/-- The environments agree on every value outside the list. -/
def AgreeOff (vs : List ℕ) (env env' : Env) : Prop := ∀ v, v ∉ vs → env v = env' v

variable {env env' : Env} {vs : List ℕ}

theorem AgreeOff.update (h : AgreeOff vs env env') (v : ℕ) (x : ℤ) :
    AgreeOff vs (update env v x) (update env' v x) := by
  intro w hw
  by_cases hv : w = v
  · rw [hv, update_self, update_self]
  · rw [update_of_ne hv, update_of_ne hv]
    exact h w hw

theorem Operand.eval_congr {x : Operand} (h : ∀ v ∈ x.uses, env v = env' v) :
    x.eval env = x.eval env' := by
  cases x with
  | lit k => rfl
  | val v => exact h v List.mem_cons_self

theorem Op.run_agree (h : AgreeOff vs env env') (o : Op A M)
    (ho : ∀ v ∈ o.uses, v ∉ vs) (m : Memory M) :
    AgreeOff vs (o.run (env, m)).1 (o.run (env', m)).1 ∧
      (o.run (env, m)).2 = (o.run (env', m)).2 := by
  cases o with
  | const => exact ⟨h, rfl⟩
  | load v q => exact ⟨h.update v _, rfl⟩
  | store x q =>
    have hx : x.eval env = x.eval env' := Operand.eval_congr fun v hv => h v (ho v hv)
    exact ⟨h, by show m.set _ (x.eval env) = m.set _ (x.eval env'); rw [hx]⟩
  | bin op v a b =>
    have ha : a.eval env = a.eval env' :=
      Operand.eval_congr fun w hw => h w (ho w (List.mem_append_left _ hw))
    have hb : b.eval env = b.eval env' :=
      Operand.eval_congr fun w hw => h w (ho w (List.mem_append_right _ hw))
    refine ⟨?_, rfl⟩
    show AgreeOff vs (update env v (op.eval (a.eval env) (b.eval env)))
      (update env' v (op.eval (a.eval env') (b.eval env')))
    rw [ha, hb]
    exact h.update v _
  | other o =>
    have he : o.effect env = o.effect env' := o.effect_congr env env' fun v hv => h v (ho v hv)
    refine ⟨?_, by show (o.effect env m).2 = (o.effect env' m).2; rw [he]⟩
    show AgreeOff vs (update env o.result (o.effect env m).1)
      (update env' o.result (o.effect env' m).1)
    rw [he]
    exact h.update _ _

/-- A run depends on the environment only through the values its operations use. -/
theorem runOps_agree (h : AgreeOff vs env env') (ops : List (Op A M))
    (ho : ∀ o ∈ ops, ∀ v ∈ Op.uses o, v ∉ vs) (m : Memory M) :
    AgreeOff vs (runOps ops (env, m)).1 (runOps ops (env', m)).1 ∧
      (runOps ops (env, m)).2 = (runOps ops (env', m)).2 := by
  induction ops generalizing env env' m with
  | nil => exact ⟨h, rfl⟩
  | cons o ops ih =>
    have hr := Op.run_agree h o (ho o List.mem_cons_self) m
    have hs : o.run (env', m) = ((o.run (env', m)).1, (o.run (env, m)).2) := by rw [hr.2]
    rw [runOps_cons, runOps_cons, hs]
    exact ih hr.1 (fun o' h' => ho o' (List.mem_cons_of_mem _ h')) _

theorem Op.run_keeps (o : Op A M) (ho : v ∉ o.results) (s : Env × Memory M) :
    (o.run s).1 v = s.1 v := by
  obtain ⟨env, m⟩ := s
  cases o with
  | const => rfl
  | store x q => rfl
  | load w q =>
    apply update_of_ne
    simpa [Op.results] using ho
  | bin op w a b =>
    apply update_of_ne
    simpa [Op.results] using ho
  | other o =>
    apply update_of_ne
    simpa [Op.results] using ho

/-- A run keeps the values its operations do not define. -/
theorem runOps_keeps (ops : List (Op A M)) (ho : v ∉ ops.flatMap Op.results)
    (s : Env × Memory M) : (runOps ops s).1 v = s.1 v := by
  induction ops generalizing s with
  | nil => rfl
  | cons o ops ih =>
    rw [List.flatMap_cons, List.mem_append, not_or] at ho
    rw [runOps_cons, ih ho.2, Op.run_keeps o ho.1]

/-- Constants do nothing. -/
theorem runOps_filter_const (ops : List (Op A M)) (s : Env × Memory M) :
    runOps (ops.filter fun o => !o.isConst) s = runOps ops s := by
  induction ops generalizing s with
  | nil => rfl
  | cons o ops ih =>
    cases o with
    | const => exact ih s
    | load v p => exact ih _
    | store x p => exact ih _
    | bin op v a b => exact ih _
    | other o => exact ih _

theorem run_filter_const (ops : List (BeforeOp A M)) (t : Turn M) :
    (ops.filter fun o => !o.isConst).foldl (fun t o => o.run t) t =
      ops.foldl (fun t o => o.run t) t := by
  induction ops generalizing t with
  | nil => rfl
  | cons o ops ih =>
    cases o with
    | op o =>
      cases o with
      | const => exact ih t
      | load v p => exact ih _
      | store x p => exact ih _
      | bin op v a b => exact ih _
      | other o => exact ih _
    | cmpi p v a b => exact ih _
    | ifOp i => exact ih _
    | trunci v a => exact ih _

end CountedLoops
