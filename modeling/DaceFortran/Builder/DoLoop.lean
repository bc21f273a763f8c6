/-
# Names, stores and rendered expressions

The value language shared by the SDFG builder's passes: the names of a routine
(those of the source and the symbols the builder mints while it emits), the
store an execution works on, and the expressions the bridge renders into
`ASTNode.expr`, `AccessInfo.index_exprs` and the bounds of a loop.

Operators and intrinsics are uninterpreted: `I f` is the meaning of the
operator or function written `f`, and every theorem holds for every `I`.
Arrays are addressed by their Fortran subscripts (the rendered
`arr[(p) - offset_arr_d0]` addresses the same element).
-/
import Mathlib.Tactic
import DaceFortran.Lib.While

/-! ## Names and stores -/

/-- A name of the routine: one written in the source, or a symbol minted by the
builder as `<pre>_<id>` (`builder.nid()`, `_INDIRECTION_GIDS`). -/
inductive Name where
  | src (s : String)
  | minted (pre : String) (id : ℕ)
  deriving DecidableEq

/-- A name minted with an id of at least `nid`. -/
def Name.MintedFrom (nid : ℕ) : Name → Prop
  | .src _ => False
  | .minted _ id => nid ≤ id

instance (nid : ℕ) (x : Name) : Decidable (x.MintedFrom nid) := by
  cases x <;> unfold Name.MintedFrom <;> infer_instance

/-- The contents of every datum at every subscript list; a scalar or a symbol
lives at the empty list. -/
abbrev Store := Name → List ℤ → ℤ

/-- Write one element. -/
def Store.write (σ : Store) (x : Name) (idx : List ℤ) (v : ℤ) : Store :=
  fun y jdx => if y = x ∧ jdx = idx then v else σ y jdx

/-- Write a scalar or a symbol. -/
def Store.set (σ : Store) (x : Name) (v : ℤ) : Store := σ.write x [] v

variable (σ : Store)

@[simp] theorem Store.write_same (x : Name) (idx : List ℤ) (v : ℤ) :
    σ.write x idx v x idx = v := by
  simp [Store.write]

variable {idx jdx : List ℤ} {x y : Name}

/-- A write leaves every other element alone. -/
theorem Store.write_of_ne (v : ℤ)
    (h : y ≠ x ∨ jdx ≠ idx) : σ.write x idx v y jdx = σ y jdx := by
  unfold Store.write
  rw [if_neg]
  rintro ⟨hy, hj⟩
  rcases h with h | h
  · exact h hy
  · exact h hj

/-- A write leaves every other datum alone. -/
theorem Store.write_of_name_ne (idx : List ℤ) (v : ℤ)
    (h : y ≠ x) : σ.write x idx v y = σ y := by
  funext jdx
  exact σ.write_of_ne v (Or.inl h)

@[simp] theorem Store.set_same (x : Name) (v : ℤ) : σ.set x v x [] = v :=
  σ.write_same x [] v

theorem Store.set_of_ne (v : ℤ) (h : y ≠ x) :
    σ.set x v y = σ y :=
  σ.write_of_name_ne [] v h

/-- Writes of two different elements commute. -/
theorem Store.write_comm (v w : ℤ)
    (h : x ≠ y ∨ idx ≠ jdx) :
    (σ.write x idx v).write y jdx w = (σ.write y jdx w).write x idx v := by
  funext z kdx
  unfold Store.write
  by_cases hx : z = x ∧ kdx = idx
  · by_cases hy : z = y ∧ kdx = jdx
    · exfalso
      rcases h with h | h
      · exact h (hx.1.symm.trans hy.1)
      · exact h (hx.2.symm.trans hy.2)
    · rw [if_neg hy, if_pos hx, if_pos hx]
  · rw [if_neg hx, if_neg hx]

/-! ## Expressions -/

/-- A rendered expression.  `load a subs` is an inline array read `a[subs]`;
`add` is kept apart from the uninterpreted operators because loop headers are
built with it (`{bound} + 1`, `{uid} + {step}`). -/
inductive Expr where
  | lit (n : ℤ)
  | var (x : Name)
  | load (a : Name) (subs : List Expr)
  | add (a b : Expr)
  | app (f : String) (args : List Expr)
 

/-! Two expressions are compared by their text, here by their structure. -/
mutual
def Expr.decEq : (a b : Expr) → Decidable (a = b)
  | .lit n, .lit m =>
      if h : n = m then .isTrue (h ▸ rfl) else .isFalse (fun e => h (Expr.lit.inj e))
  | .var x, .var y =>
      if h : x = y then .isTrue (h ▸ rfl) else .isFalse (fun e => h (Expr.var.inj e))
  | .load a s, .load b t =>
      if h : a = b then
        match Expr.decEqList s t with
        | .isTrue h' => .isTrue (h ▸ h' ▸ rfl)
        | .isFalse h' => .isFalse (fun e => h' (Expr.load.inj e).2)
      else .isFalse (fun e => h (Expr.load.inj e).1)
  | .add a b, .add c d =>
      match Expr.decEq a c, Expr.decEq b d with
      | .isTrue h, .isTrue h' => .isTrue (h ▸ h' ▸ rfl)
      | .isFalse h, _ => .isFalse (fun e => h (Expr.add.inj e).1)
      | _, .isFalse h => .isFalse (fun e => h (Expr.add.inj e).2)
  | .app f s, .app g t =>
      if h : f = g then
        match Expr.decEqList s t with
        | .isTrue h' => .isTrue (h ▸ h' ▸ rfl)
        | .isFalse h' => .isFalse (fun e => h' (Expr.app.inj e).2)
      else .isFalse (fun e => h (Expr.app.inj e).1)
  | .lit _, .var _ | .lit _, .load _ _ | .lit _, .add _ _ | .lit _, .app _ _
  | .var _, .lit _ | .var _, .load _ _ | .var _, .add _ _ | .var _, .app _ _
  | .load _ _, .lit _ | .load _ _, .var _ | .load _ _, .add _ _ | .load _ _, .app _ _
  | .add _ _, .lit _ | .add _ _, .var _ | .add _ _, .load _ _ | .add _ _, .app _ _
  | .app _ _, .lit _ | .app _ _, .var _ | .app _ _, .load _ _ | .app _ _, .add _ _ =>
      .isFalse (fun e => by cases e)
def Expr.decEqList : (s t : List Expr) → Decidable (s = t)
  | [], [] => .isTrue rfl
  | a :: s, b :: t =>
      match Expr.decEq a b, Expr.decEqList s t with
      | .isTrue h, .isTrue h' => .isTrue (h ▸ h' ▸ rfl)
      | .isFalse h, _ => .isFalse (fun e => h (List.cons.inj e).1)
      | _, .isFalse h => .isFalse (fun e => h (List.cons.inj e).2)
  | [], _ :: _ | _ :: _, [] => .isFalse (fun e => by cases e)
end

instance : DecidableEq Expr := Expr.decEq

/-- The meaning of the operators and functions an expression may apply. -/
abbrev Interp := String → List ℤ → ℤ

mutual
/-- The value of an expression in a store. -/
def Expr.eval (I : Interp) (σ : Store) : Expr → ℤ
  | .lit n => n
  | .var x => σ x []
  | .load a subs => σ a (Expr.evalList I σ subs)
  | .add a b => a.eval I σ + b.eval I σ
  | .app f args => I f (Expr.evalList I σ args)
/-- The values of a list of expressions. -/
def Expr.evalList (I : Interp) (σ : Store) : List Expr → List ℤ
  | [] => []
  | e :: es => e.eval I σ :: Expr.evalList I σ es
end

mutual
/-- The identifiers of an expression's text, as `re.findall` collects them
(`_rhs_free_symbols`): variables, arrays and the functions applied. -/
def Expr.idents : Expr → List Name
  | .lit _ => []
  | .var x => [x]
  | .load a subs => a :: Expr.identsList subs
  | .add a b => a.idents ++ b.idents
  | .app f args => .src f :: Expr.identsList args
def Expr.identsList : List Expr → List Name
  | [] => []
  | e :: es => e.idents ++ Expr.identsList es
end

/-! An expression depends only on the data its text names. -/
mutual
theorem Expr.eval_congr (I : Interp) {σ τ : Store} :
    ∀ e : Expr, (∀ x ∈ e.idents, σ x = τ x) → e.eval I σ = e.eval I τ
  | .lit n, _ => rfl
  | .var x, h => by
      have hx : σ x = τ x := h x (by simp [Expr.idents])
      simp [Expr.eval, hx]
  | .load a subs, h => by
      have ha : σ a = τ a := h a (by simp [Expr.idents])
      have hs : Expr.evalList I σ subs = Expr.evalList I τ subs :=
        Expr.evalList_congr I subs (fun x hx => h x (by simp [Expr.idents, hx]))
      simp [Expr.eval, ha, hs]
  | .add a b, h => by
      have ha := Expr.eval_congr I a (fun x hx => h x (by simp [Expr.idents, hx]))
      have hb := Expr.eval_congr I b (fun x hx => h x (by simp [Expr.idents, hx]))
      simp [Expr.eval, ha, hb]
  | .app f args, h => by
      have hs : Expr.evalList I σ args = Expr.evalList I τ args :=
        Expr.evalList_congr I args (fun x hx => h x (by simp [Expr.idents, hx]))
      simp [Expr.eval, hs]
theorem Expr.evalList_congr (I : Interp) {σ τ : Store} :
    ∀ es : List Expr, (∀ x ∈ Expr.identsList es, σ x = τ x) →
      Expr.evalList I σ es = Expr.evalList I τ es
  | [], _ => rfl
  | e :: es, h => by
      have he := Expr.eval_congr I e (fun x hx => h x (by simp [Expr.identsList, hx]))
      have hes := Expr.evalList_congr I es (fun x hx => h x (by simp [Expr.identsList, hx]))
      simp [Expr.evalList, he, hes]
end

/-- Writing a datum an expression does not name leaves its value. -/
theorem Expr.eval_write (I : Interp) (σ : Store) (e : Expr) {x : Name} (idx : List ℤ)
    (v : ℤ) (h : x ∉ e.idents) : e.eval I (σ.write x idx v) = e.eval I σ := by
  refine Expr.eval_congr I e (fun y hy => σ.write_of_name_ne idx v ?_)
  rintro rfl
  exact h hy

theorem Expr.evalList_write (I : Interp) (σ : Store) (es : List Expr) {x : Name}
    (idx : List ℤ) (v : ℤ) (h : x ∉ Expr.identsList es) :
    Expr.evalList I (σ.write x idx v) es = Expr.evalList I σ es := by
  refine Expr.evalList_congr I es (fun y hy => σ.write_of_name_ne idx v ?_)
  rintro rfl
  exact h hy

theorem Expr.eval_set (I : Interp) (σ : Store) {e : Expr} {x : Name} (v : ℤ)
    (h : x ∉ e.idents) : e.eval I (σ.set x v) = e.eval I σ :=
  e.eval_write I σ [] v h

/-
# DO loops and the LoopRegions emitted for them

`emit_loop` (builder/emit_cfg.py) turns a Fortran DO loop into a LoopRegion: the
bounds and the step that are not bare names or literals are staged onto fresh
symbols by assignments in front of the region (`_hoist_bound_to_symbol`), and
the region's header is rendered forward, reverse or with a symbolic step.

The model has the bridge's loop node (`nodeOf`, dispatch.cpp), the header part
of `emit_loop` and the execution of the result (`LoopRegion.Runs`), next to
Fortran's own rule for a DO loop (`tripCount`, `iterations`).
-/

/-! ## Fortran's iteration space -/

/-- Fortran's iteration count `MAX(0, (hi - lo + s) / s)`, the division truncating. -/
def tripCount (lo hi s : ℤ) : ℕ := (max 0 ((hi - lo + s).tdiv s)).toNat

/-- The values the DO variable takes, in order. -/
def iterations (lo hi s : ℤ) : List ℤ :=
  (List.range (tripCount lo hi s)).map (fun k : ℕ => lo + k * s)

@[simp] theorem length_iterations (lo hi s : ℤ) :
    (iterations lo hi s).length = tripCount lo hi s := by
  simp [iterations]

/-- Counting down is counting up with every sign flipped. -/
theorem tripCount_neg (lo hi s : ℤ) : tripCount (-lo) (-hi) (-s) = tripCount lo hi s := by
  unfold tripCount
  rw [show -hi - -lo + -s = -(hi - lo + s) by ring, Int.neg_tdiv_neg]

/-- Counting up, iteration `k` exists exactly when `lo + k * s` has not passed `hi`. -/
theorem lt_tripCount_iff_of_pos {lo hi s : ℤ} (hs : 0 < s) (k : ℕ) :
    k < tripCount lo hi s ↔ lo + k * s ≤ hi := by
  unfold tripCount
  rcases le_or_gt 0 (hi - lo + s) with hn | hn
  · rw [Int.tdiv_eq_ediv_of_nonneg hn]
    have hq : 0 ≤ (hi - lo + s) / s := Int.ediv_nonneg hn hs.le
    rw [max_eq_right hq, Int.lt_toNat, ← Int.add_one_le_iff, Int.le_ediv_iff_mul_le hs]
    constructor <;> intro h <;> linarith
  · have hq : (hi - lo + s).tdiv s ≤ 0 := by
      rw [← neg_neg (hi - lo + s), Int.neg_tdiv]
      have : 0 ≤ (-(hi - lo + s)).tdiv s := Int.tdiv_nonneg (by linarith) hs.le
      linarith
    rw [max_eq_left hq]
    have hk : 0 ≤ (k : ℤ) * s := mul_nonneg (Int.natCast_nonneg k) hs.le
    constructor
    · intro h
      simp at h
    · intro h
      exfalso
      linarith

/-- Counting down, iteration `k` exists exactly when `lo + k * s` has not passed `hi`. -/
theorem lt_tripCount_iff_of_neg {lo hi s : ℤ} (hs : s < 0) (k : ℕ) :
    k < tripCount lo hi s ↔ hi ≤ lo + k * s := by
  rw [← tripCount_neg, lt_tripCount_iff_of_pos (by linarith)]
  constructor <;> intro h <;> linarith

/-! ## The bridge's loop node -/

/-- A DO statement: `DO iter = lower, upper, step`. -/
structure DoHeader where
  iter : Name
  lower : Expr
  upper : Expr
  step : Expr
  deriving DecidableEq

/-- The loop fields of the bridge's `ASTNode`. -/
structure LoopNode where
  loopIter : Name
  loopBound : Expr
  loopLower : ℤ := -1
  loopLowerExpr : Option Expr := none
  loopStep : ℤ := 1
  loopStepExpr : Option Expr := none
  deriving DecidableEq

/-- `traceConstInt`: the value of an integer constant. -/
def traceConstInt : Expr → Option ℤ
  | .lit c => some c
  | _ => none

/-- `traceLB`: a constant lower bound, `-1` when it is not constant. -/
def traceLB (e : Expr) : ℤ := (traceConstInt e).getD (-1)

/-- The loop node the bridge builds for a `fir.do_loop`: a negative lower bound
and a symbolic step are carried as expressions. -/
def nodeOf (h : DoHeader) : LoopNode where
  loopIter := h.iter
  loopBound := h.upper
  loopLower := traceLB h.lower
  loopLowerExpr := if traceLB h.lower < 0 then some h.lower else none
  loopStep := (traceConstInt h.step).getD 1
  loopStepExpr := if (traceConstInt h.step).isSome then none else some h.step

/-! ## Emission -/

/-- The registries of the builder a bound is looked up in. -/
structure SDFGBuilder where
  arrays : List Name := []
  scalars : List Name := []
  symbols : List Name := []
 

/-- `_is_trivial_bound`: a literal, or a bare name that is no data array. -/
def isTrivialBound (b : SDFGBuilder) : Expr → Bool
  | .lit _ => true
  | .var x => decide (x ∉ b.arrays)
  | _ => false

/-- A bound after `_hoist_bound_to_symbol`: what the header uses for it, the
interstate assignments in front of the region, and the next free id. -/
structure Hoisted where
  expr : Expr
  pre : List (Name × Expr)
  nid : ℕ

/-- `_hoist_bound_to_symbol`. -/
def hoistBoundToSymbol (b : SDFGBuilder) (nid : ℕ) (e : Expr) (pfx : String) : Hoisted :=
  if isTrivialBound b e then ⟨e, [], nid⟩
  else ⟨.var (.minted pfx nid), [(.minted pfx nid, e)], nid + 1⟩

/-- A LoopRegion's condition: `a < b` or `a >= b`. -/
inductive Condition where
  | lt (a b : Expr)
  | ge (a b : Expr)
  deriving DecidableEq

def Condition.holds (I : Interp) (σ : Store) : Condition → Prop
  | .lt a b => a.eval I σ < b.eval I σ
  | .ge a b => b.eval I σ ≤ a.eval I σ

instance (I : Interp) (σ : Store) (c : Condition) : Decidable (c.holds I σ) := by
  cases c <;> unfold Condition.holds <;> infer_instance

/-- The header of a DaCe LoopRegion. -/
structure LoopRegion where
  loopVar : Name
  initializeExpr : Expr
  conditionExpr : Condition
  updateExpr : Expr
  deriving DecidableEq

/-- What `emit_loop` adds to the region before it fills the body. -/
structure EmittedLoop where
  pre : List (Name × Expr)
  region : LoopRegion
  deriving DecidableEq

/-- The header part of `emit_loop`. -/
def emitLoop (b : SDFGBuilder) (nid : ℕ) (n : LoopNode) : EmittedLoop :=
  let uid := n.loopIter
  let lower := n.loopLowerExpr.getD (.lit (if 0 ≤ n.loopLower then n.loopLower else 1))
  let bound := hoistBoundToSymbol b nid n.loopBound "loopend"
  let low := hoistBoundToSymbol b bound.nid lower "loopbegin"
  match n.loopStepExpr with
  | some stepExpr =>
      let step := hoistBoundToSymbol b low.nid stepExpr "loopstep"
      { pre := bound.pre ++ low.pre ++ step.pre
        region := ⟨uid, low.expr, .lt (.var uid) (.add bound.expr (.lit 1)),
          .add (.var uid) step.expr⟩ }
  | none =>
      { pre := bound.pre ++ low.pre
        region :=
          if 0 ≤ n.loopStep then
            ⟨uid, low.expr, .lt (.var uid) (.add bound.expr (.lit 1)),
              .add (.var uid) (.lit n.loopStep)⟩
          else
            -- Reverse: the lower bound is the start, the upper bound the end.
            ⟨uid, low.expr, .ge (.var uid) bound.expr, .add (.var uid) (.lit n.loopStep)⟩ }

/-! ## Execution -/

/-- Interstate assignments one edge after another. -/
def runPre (I : Interp) (pre : List (Name × Expr)) (σ : Store) : Store :=
  pre.foldl (fun σ p => σ.set p.1 (p.2.eval I σ)) σ

/-- The store in which the region's condition is first tested. -/
def EmittedLoop.entry (I : Interp) (em : EmittedLoop) (σ : Store) : Store :=
  let σ' := runPre I em.pre σ
  σ'.set em.region.loopVar (em.region.initializeExpr.eval I σ')

/-- One iteration: the body, then the update of the loop variable. -/
def LoopRegion.iterate (I : Interp) (r : LoopRegion) (body : Store → Store) (σ : Store) :
    Store :=
  (body σ).set r.loopVar (r.updateExpr.eval I (body σ))

/-- The emitted loop run from `σ`: the values of the loop variable its body is
executed with, and the final store. -/
def EmittedLoop.Runs (I : Interp) (em : EmittedLoop) (body : Store → Store) (σ : Store)
    (values : List ℤ) (σ' : Store) : Prop :=
  WhileLoop.Runs (fun τ => em.region.conditionExpr.holds I τ) (em.region.iterate I body)
    (fun τ => τ em.region.loopVar []) (em.entry I σ) values σ'
